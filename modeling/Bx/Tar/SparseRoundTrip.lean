import Bx.Tar.SparseWrite

/-!
# A sparse entry read back

The lines of a map read as its extents, and the data begins at the next whole
block. The records before the member leave its path and its logical size, so
a visitor is shown one sparse entry, with its data as a whole or in chunks.
-/

namespace Bx.Tar
open Kit List

/-! ## Reading the map -/

theorem sparseNumberLine_digits {digits : Bytes} (hdigits : ∀ c ∈ digits, isDigit 10 c = true) {value bytesRead : Nat}
    (hfits : numeralValue 10 value digits ≤ sizeMax) (hread : 0 < bytesRead + digits.length) (more : Bytes) :
    sparseNumberLine value bytesRead (digits ++ 10 :: more) =
      some (numeralValue 10 value digits, bytesRead + digits.length + 1) := by
  induction digits generalizing value bytesRead with
  | nil =>
    rw [nil_append, sparseNumberLine, if_pos rfl, if_neg (by rw [length_nil] at hread; omega)]
    rfl
  | cons c digits ih =>
    have hc := hdigits c mem_cons_self
    have hnewline : c ≠ 10 := by
      intro heq
      rw [heq] at hc
      exact absurd hc (by decide)
    have hgrow := @le_numeralValue 10 (by decide) (value * 10 + digitValue c) digits
    rw [numeralValue_cons] at hfits
    have hdigit : sparseNumberDigit c value = some (value * 10 + digitValue c) := by
      unfold sparseNumberDigit
      rw [if_pos hc, if_neg (by omega)]
    rw [cons_append, sparseNumberLine, if_neg hnewline, hdigit]
    dsimp only
    rw [ih (fun c' hc' => hdigits c' (mem_cons_of_mem _ hc')) hfits (by omega), numeralValue_cons,
      length_cons]
    congr 2
    omega

section
variable {payload more : Bytes} {pos : Nat}

theorem sparseBufferNumber_line {n : Nat} (hdrop : payload.drop pos = numberLine n ++ more) (hn : n ≤ sizeMax) :
    sparseBufferNumber payload pos = some (n, pos + (numberLine n).length) := by
  have hdigits : ∀ c ∈ numeral 10 n, isDigit 10 c = true := numeral_digits n
  have hne : 0 < (numeral 10 n).length := length_pos_iff.mpr (numeral_ne_nil n)
  have hline : sparseNumberLine 0 0 (numeral 10 n ++ 10 :: more) = some (n, (numeral 10 n).length + 1) := by
    rw [sparseNumberLine_digits hdigits (by rw [numeralValue_decimal]; exact hn) (by omega), numeralValue_decimal,
      zero_add]
  have hshape : numberLine n ++ more = numeral 10 n ++ 10 :: more := by simp [numberLine]
  unfold sparseBufferNumber
  rw [hdrop, hshape, hline]
  simp [numberLine]

theorem drop_past {a b : Bytes} (h : payload.drop pos = a ++ b) : payload.drop (pos + a.length) = b := by
  rw [← drop_drop, h, drop_left' rfl]

theorem parseSparseExtents_lines {extents : List SparseExtent}
    (hextents : ∀ extent ∈ extents, extent.offset ≤ sizeMax ∧ extent.size ≤ sizeMax)
    (hdrop : payload.drop pos = extentLines extents ++ more) :
    parseSparseExtents payload extents.length pos = some (extents, pos + (extentLines extents).length) := by
  induction extents generalizing pos with
  | nil => rfl
  | cons extent extents ih =>
    obtain ⟨hoffset, hsize⟩ := hextents extent mem_cons_self
    have hcons : extentLines (extent :: extents) =
        numberLine extent.offset ++ (numberLine extent.size ++ extentLines extents) := by
      simp [extentLines]
    rw [hcons, append_assoc, append_assoc] at hdrop
    have hdrop' := drop_past hdrop
    have hrest := ih (fun other hother => hextents other (mem_cons_of_mem _ hother)) (drop_past hdrop')
    rw [length_cons, parseSparseExtents, sparseBufferNumber_line hdrop hoffset]
    dsimp only
    rw [sparseBufferNumber_line hdrop' hsize]
    dsimp only
    rw [hrest, hcons, length_append, length_append]
    dsimp only
    rw [add_assoc, add_assoc]

end

theorem checkedSizeRoundUp_eq {value align : Nat} (halign : 0 < align) (h : roundUp value align ≤ sizeMax) :
    checkedSizeRoundUp value align = some (roundUp value align) := by
  have hlt := Nat.mod_lt value halign
  unfold roundUp at h ⊢
  unfold checkedSizeRoundUp
  dsimp only at h ⊢
  by_cases hzero : value % align = 0
  · rw [if_pos hzero, if_pos hzero]
  · rw [if_neg hzero] at h
    rw [if_neg hzero, if_neg hzero, if_neg (by omega)]

theorem length_extentLines (extents : List SparseExtent) : 4 * extents.length ≤ (extentLines extents).length := by
  induction extents with
  | nil => exact le_rfl
  | cons extent extents ih =>
    have hline : ∀ n, 2 ≤ (numberLine n).length := by
      intro n
      have hne : 0 < (numeral 10 n).length := length_pos_iff.mpr (numeral_ne_nil n)
      simp [numberLine]
      omega
    have hcons : (extentLines (extent :: extents)).length =
        (numberLine extent.offset).length + (numberLine extent.size).length + (extentLines extents).length := by
      simp [extentLines, add_assoc]
    have hoffset := hline extent.offset
    have hsize := hline extent.size
    rw [hcons, length_cons]
    omega

namespace SparseEntry
variable {e : SparseEntry} {payload : Bytes}

section
variable (h : e.WellFormed payload)
include h

theorem parseSparseMap_body (entry : Entry) :
    parseSparseMap (e.body payload) entry =
      some { entry with extents := e.extents, data := payload, dataLen := payload.length } := by
  have hroom := length_paddedMap_le h
  have hmap := length_paddedMap e.extents
  have hgrow := le_roundUp (mapText e.extents).length blockSize
  have htext : (mapText e.extents).length = (numberLine e.extents.length).length + (extentLines e.extents).length :=
    length_append
  have hlength : (e.body payload).length = (paddedMap e.extents).length + payload.length := length_append
  have hcount : (e.body payload).drop 0 = numberLine e.extents.length ++
      (extentLines e.extents ++ (zeroPadding (mapText e.extents).length ++ payload)) := by
    simp [body, paddedMap, mapText]
  have hlimit := h.extents
  have hextents := drop_past hcount
  rw [zero_add] at hextents
  have henough := length_extentLines e.extents
  unfold parseSparseMap
  rw [sparseBufferNumber_line hcount (Nat.le_trans hlimit (by decide)), zero_add]
  dsimp only
  rw [if_neg (by omega), parseSparseExtents_lines h.extent hextents, ← htext]
  dsimp only
  rw [checkedSizeRoundUp_eq (by decide) (by omega), ← hmap]
  dsimp only
  rw [if_neg (by omega), hlength, Nat.add_sub_cancel_left]
  unfold body
  rw [drop_left' rfl]

/-! ## The prepared entry -/

/-- The records before the member, those of its own after those of the sparse entry -/
def readPax (e : SparseEntry) (payload : Bytes) (pax : PaxInfo) : PaxInfo :=
  (e.member (e.body payload)).paxOnto (e.paxOver pax)

variable {pax : PaxInfo}

omit h in
theorem readPax_eq (honly : OnlyMetadata {} pax) :
    e.readPax payload pax =
      { path := some e.path
        numbers := (e.member (e.body payload)).writtenPax.numbers
        metadata := pax.metadata
        omitSelinux := pax.omitSelinux
        sparseMajor := 1
        sparseMinor := 0
        sparseRealsize := e.logicalSize
        sparseEnabled := true
        active := true } := by
  have hpath : (e.member (e.body payload)).needPathPax = false := rfl
  have hlink : (e.member (e.body payload)).needLinkPax = false := rfl
  unfold OnlyMetadata at honly
  unfold readPax RawEntry.paxOnto RawEntry.writtenPax paxOver
  rw [honly, hpath, hlink]
  generalize e.member (e.body payload) = m
  cases m.needUidPax <;> cases m.needGidPax <;> cases m.needSizePax <;> cases m.needMtimePax <;> rfl

omit h in
theorem effective_readPax (honly : OnlyMetadata {} pax) :
    paxEffectiveInfo {} (e.readPax payload pax) = e.readPax payload pax := by
  rw [readPax_eq honly]
  unfold RawEntry.writtenPax
  generalize e.member (e.body payload) = m
  cases m.needUidPax <;> cases m.needGidPax <;> cases m.needSizePax <;> cases m.needMtimePax <;> rfl

end

structure Same (e : SparseEntry) (entry : Entry) : Prop where
  name : entry.name = e.path
  linkname : entry.linkname = none
  kind : entry.kind = .reg
  sparse : entry.sparse = true
  size : entry.size = e.logicalSize
  extents : entry.extents = e.extents
  dataLen : entry.dataLen = e.compactSize
  mode : entry.mode = e.mode % 0o10000
  uid : entry.uid = e.uid
  gid : entry.gid = e.gid
  mtime : entry.mtime = e.mtime

def mapped (e : SparseEntry) (data : Bytes) (entry : Entry) : Entry :=
  { entry.asSparse e.logicalSize with extents := e.extents, data := data, dataLen := e.compactSize }

section
variable (h : e.WellFormed payload)
include h

theorem prepare_sparse {pax : PaxInfo} (honly : OnlyMetadata {} pax) :
    ∃ entry, prepareEntryFromHeader {} (e.mainHeader payload).block (e.body payload).length 48 (e.readPax payload pax)
        (e.readPax payload pax).numbers {} {} = some (entry, {}) ∧ entry.kind = .reg ∧ entry.data = [] ∧
      ∀ data index, e.Same (e.mapped data (entry.atBlock index)) := by
  rw [readPax_eq honly]
  refine ⟨_, rfl, rfl, rfl, ?_⟩
  intro data index
  have hmode : (parseOctalField (field (e.mainHeader payload).block 100 8)).getD 0 % 2 ^ 32 = e.mode % 0o10000 := by
    have hread : (e.mainHeader payload).mode = e.mode := rfl
    rw [(e.mainHeader payload).block_mode, hread, Option.getD_some]
    omega
  exact
    { name := rfl
      linkname := rfl
      kind := rfl
      sparse := rfl
      size := rfl
      extents := rfl
      dataLen := rfl
      mode := hmode
      uid := @uid_written (e.member (e.body payload)) h.uid payloadName
      gid := @gid_written (e.member (e.body payload)) h.gid payloadName
      mtime := @mtime_written (e.member (e.body payload)) h.sec payloadName }

end

/-! ## Showing the entry -/

def sparseOps (stream : Bool) : VisitorOps (List VisitEvent) := { logOps with streamSparsePayload := stream }

def ownData (stream : Bool) (payload : Bytes) : Bytes := if stream then [] else payload

def shownData (stream : Bool) (payload : Bytes) : Bytes := if stream then payload else []

def afterMember (e : SparseEntry) (stream : Bool) (payload : Bytes) (input : Input) : Input :=
  input.advance (if stream then (e.body payload).length - payload.length else roundUp (e.body payload).length blockSize)

section
variable (h : e.WellFormed payload) {input : Input} {after : Bytes}
  (hrest : input.rest = (e.body payload ++ zeroPadding (e.body payload).length) ++ after)
include h hrest

theorem prepareMember_sparse (stream : Bool) {pax : PaxInfo} (honly : OnlyMetadata {} pax) {entry : Entry}
    (hkind : entry.kind = .reg) (hdata : entry.data = []) :
    prepareMember (sparseOps stream) (e.readPax payload pax) (e.body payload).length entry input =
      some (e.mapped (ownData stream payload) entry,
        roundUp (e.body payload).length blockSize - (e.body payload).length, e.afterMember stream payload input) := by
  have hroom : roundUp (e.body payload).length blockSize ≤ input.rest.length := by
    rw [hrest, length_append, length_padded]
    omega
  have htake : input.rest.take (e.body payload).length = e.body payload := by
    rw [hrest, append_assoc, take_left' rfl]
  have hsparse : entry.kind = .reg ∧ sparseMember (e.readPax payload pax) = true := by
    rw [readPax_eq honly]
    exact ⟨hkind, rfl⟩
  have hsize : (e.readPax payload pax).sparseRealsize = e.logicalSize := by rw [readPax_eq honly]
  have hparse := parseSparseMap_body h (entry.asSparse e.logicalSize)
  unfold prepareMember
  rw [if_pos hsparse, hsize]
  cases stream with
  | true =>
    rw [prepareSparsePayload_eq (Nat.le_trans (le_roundUp _ _) hroom), htake, hparse]
    unfold mapped ownData afterMember
    rw [h.compactSize]
    simp [sparseOps, Entry.asSparse, hdata]
  | false =>
    have hread := @readSparseMember_eq input (e.body payload).length (entry.asSparse e.logicalSize) hroom
    unfold mapped ownData afterMember
    rw [htake, hparse] at hread
    rw [h.compactSize]
    exact hread

omit h in
theorem visitSparsePayload_log (entry : Entry) (hdata : entry.dataLen = payload.length) :
    ∃ log, visitSparsePayload (sparseOps true) entry
        (roundUp (e.body payload).length blockSize - (e.body payload).length) [.beginEntry entry] (e.afterMember true payload input) =
        some (log, input.advance (roundUp (e.body payload).length blockSize)) ∧ LogSeen entry log payload := by
  have hlength : (e.body payload).length = (paddedMap e.extents).length + payload.length := length_append
  have hroom : roundUp (e.body payload).length blockSize ≤ input.rest.length := by
    rw [hrest, length_append, length_padded]
    omega
  have hstart : LogSeen entry [.beginEntry entry] [] := ⟨[], rfl, rfl⟩
  have hdrop : (e.afterMember true payload input).rest =
      payload ++ (zeroPadding (e.body payload).length ++ after) := by
    unfold afterMember
    rw [if_pos rfl, Input.advance_rest, hrest, hlength, Nat.add_sub_cancel]
    unfold body
    rw [append_assoc, append_assoc, drop_left' rfl]
  have hsum : (e.body payload).length - payload.length + payload.length = (e.body payload).length := by omega
  have hpast : (e.afterMember true payload input).advance payload.length = input.advance (e.body payload).length := by
    unfold afterMember
    rw [if_pos rfl, Input.advance_advance, hsum]
  have hskip := skip_padding hroom
  unfold visitSparsePayload
  rw [hdata]
  by_cases hzero : payload.length = 0
  · rw [hzero, Input.advance_zero] at hpast
    rw [if_pos hzero, hpast, hskip, length_eq_zero_iff.mp hzero]
    exact ⟨_, rfl, hstart⟩
  · obtain ⟨log, hvisit, hseen⟩ := @visitChunks_of_step _ (fun log _ data => some (log ++ [.payload data])) entry
      (LogSeen entry) (fun log seen data h => ⟨log ++ [.payload data], rfl, h.append data⟩) payload.length
      [.beginEntry entry] (e.afterMember true payload input) hstart (by rw [hdrop, length_append]; omega)
    rw [hpast] at hvisit
    rw [hdrop, take_left' rfl] at hseen
    refine ⟨log, ?_, hseen⟩
    rw [if_neg hzero]
    simp only [sparseOps, logOps, hvisit, hskip]
    rfl

end

section
variable (h : e.WellFormed payload) (stream : Bool) {pax : PaxInfo} (honly : OnlyMetadata {} pax)
  {s : VisitState (List VisitEvent)} (hpax : s.pax = e.readPax payload pax) (hshared : s.shared = {})
  (hlong : s.long = {}) (huser : s.user = []) {after : Bytes}
include h honly hpax hshared hlong huser

theorem visitEntry_sparse (hrest : s.input.rest = (e.body payload ++ zeroPadding (e.body payload).length) ++ after)
    (index : Nat) :
    ∃ next entry log,
      visitEntry (sparseOps stream) {} s (e.mainHeader payload).block index (e.body payload).length = some next ∧
      next.header = none ∧ next.input.rest = after ∧ next.user = log ++ [.endEntry entry] ∧
      LogSeen entry log (shownData stream payload) ∧ entry.data = ownData stream payload ∧ e.Same entry := by
  have htype : typeflag (e.mainHeader payload).block = 48 := (e.mainHeader payload).block_typeflag
  have heffective : paxEffectiveInfo s.shared (e.readPax payload pax) = e.readPax payload pax := by
    rw [hshared]
    exact effective_readPax honly
  have hmeta : s.shared.metadata = {} := by rw [hshared]
  obtain ⟨prepared, hprepare, hkind, hdata, hsame⟩ := prepare_sparse h honly
  have hmember := @prepareMember_sparse e payload h s.input after hrest stream pax honly (prepared.atBlock index) hkind
    hdata
  have hsame' := hsame (ownData stream payload) index
  have hown : (e.mapped (ownData stream payload) (prepared.atBlock index)).data = ownData stream payload := rfl
  obtain ⟨entry, hentry⟩ : ∃ entry, e.mapped (ownData stream payload) (prepared.atBlock index) = entry := ⟨_, rfl⟩
  rw [hentry] at hmember hsame' hown
  have hbegin : (sparseOps stream).beginEntry s.user entry = some [.beginEntry entry] := by
    rw [huser]
    rfl
  obtain ⟨log, hvisit, hseen⟩ : ∃ log, visitMemberPayload (sparseOps stream) entry (e.body payload).length
      (roundUp (e.body payload).length blockSize - (e.body payload).length) [.beginEntry entry]
      (e.afterMember stream payload s.input) =
      some (log, s.input.advance (roundUp (e.body payload).length blockSize)) ∧
      LogSeen entry log (shownData stream payload) := by
    unfold visitMemberPayload
    rw [if_pos hsame'.kind, if_pos hsame'.sparse]
    cases stream with
    | true => exact visitSparsePayload_log hrest entry (hsame'.dataLen.trans h.compactSize)
    | false => exact ⟨_, rfl, [], rfl, rfl⟩
  have hend : endEntry (sparseOps stream) log entry = some (log ++ [.endEntry entry]) := rfl
  simp only [visitEntry, heffective, htype, hmeta, hlong, hprepare, hpax, hmember, hbegin, hvisit, hend,
    Option.map_some]
  refine ⟨_, entry, log, rfl, rfl, ?_, rfl, hseen, hown, hsame'⟩
  rw [Input.advance_rest, hrest, drop_left' (length_padded (e.body payload))]

omit hshared hlong huser in
theorem declared_size :
    headerPayloadSize (e.mainHeader payload).block (paxEffectiveInfo {} s.pax).numbers =
      some (e.body payload).length := by
  rw [hpax, effective_readPax honly, readPax_eq honly]
  exact @mainHeader_size (e.member (e.body payload)) (body_length_le h) payloadName

theorem run_sparse (hheader : s.header = none) {n : Nat} (hn : 2 * blockSize ≤ n)
    (hrest : s.input.rest = (e.mainHeader payload).block ++
      ((e.body payload ++ zeroPadding (e.body payload).length) ++ replicate n 0)) (fuel : Nat) :
    ∃ log entry, loop (visitStep (sparseOps stream) {}) (fuel + 2) s = some (some log) ∧
      ShowsOne log entry (shownData stream payload) ∧ entry.data = ownData stream payload ∧ e.Same entry := by
  have hblock := (e.mainHeader payload).length_block
  obtain ⟨index, hstep⟩ := @visitStep_block _ (sparseOps stream) s _ _ hheader hrest hblock
    (e.mainHeader payload).block_not_zero
  have htype : typeflag (e.mainHeader payload).block = 48 := (e.mainHeader payload).block_typeflag
  have hsize : headerPayloadSize (e.mainHeader payload).block (paxEffectiveInfo s.shared s.pax).numbers =
      some (e.body payload).length := by
    rw [hshared]
    exact declared_size h honly hpax
  obtain ⟨next, entry, log, hvisit, hnext, hafter, hlog, hseen, hdata, hsame⟩ :=
    @visitEntry_sparse e payload h stream pax honly { s with input := s.input.advance blockSize } hpax hshared hlong huser _ (advance_block hrest hblock) index
  have hentry : visitStep (sparseOps stream) {} s = .inl next := by
    rw [hstep]
    simp only [visitBlock, (e.mainHeader payload).block_checksum, hsize, htype, if_true]
    rw [if_neg (by decide), if_neg (by decide), if_neg (by decide), if_neg (by decide), hvisit]
  obtain ⟨index', total, hend⟩ := @visitStep_trailer (sparseOps stream) rfl next n hnext hafter hn
  obtain ⟨chunks, rfl, hchunks⟩ := hseen
  refine ⟨next.user ++ [.finishArchive index' .zeroBlocks total], entry, ?_, ?_, hdata, hsame⟩
  · rw [loop_go hentry, loop_leave hend]
  · refine ⟨chunks, index', .zeroBlocks, total, ?_, hchunks⟩
    rw [hlog]
    simp

end

/-! ## The whole archive -/

structure AtMember (e : SparseEntry) (payload : Bytes) (pax : PaxInfo) (after : Bytes)
    (s : VisitState (List VisitEvent)) : Prop where
  pax : s.pax = e.readPax payload pax
  shared : s.shared = {}
  long : s.long = {}
  user : s.user = []
  header : s.header = none
  rest : s.input.rest =
    (e.mainHeader payload).block ++ ((e.body payload ++ zeroPadding (e.body payload).length) ++ after)

section
variable (h : e.WellFormed payload) (stream : Bool)
include h

theorem visits_member {second : Bytes} (hsecond : (e.member (e.body payload)).paxMember = some second) {pax : PaxInfo}
    {s : VisitState (List VisitEvent)} (hpax : s.pax = e.paxOver pax) (hshared : s.shared = {}) (hlong : s.long = {})
    (huser : s.user = []) (hheader : s.header = none) {after : Bytes}
    (hrest : s.input.rest = second ++ ((e.mainHeader payload).block ++
      ((e.body payload ++ zeroPadding (e.body payload).length) ++ after))) :
    ∃ next steps, steps ≤ 1 ∧ Visits (visitStep (sparseOps stream) {}) s next ∧ e.AtMember payload pax after next ∧
      ∀ fuel, loop (visitStep (sparseOps stream) {}) (fuel + steps) s =
        loop (visitStep (sparseOps stream) {}) fuel next := by
  unfold RawEntry.paxMember at hsecond
  by_cases hneed : (e.member (e.body payload)).needPax = true
  · obtain ⟨data, hdata, hlength, hread⟩ := member_paxData h (e.paxOver pax)
    obtain ⟨name, hname⟩ : ∃ name, splitUstarName (ascii "./PaxHeaders/bx") false = some name := ⟨_, rfl⟩
    rw [if_pos hneed, hdata, hname] at hsecond
    cases hsecond
    obtain ⟨next, hstep, hrest', hheader', hpax', hshared', hlong', huser'⟩ :=
      @visitStep_paxMember _ (sparseOps stream) s name data _ (e.readPax payload pax) hheader
        (by rw [hrest, append_assoc, append_assoc, ← append_assoc data]; rfl) hlength
        (by rw [hpax]; exact hread)
    exact ⟨next, 1, le_rfl, .go hstep (.refl next),
      { pax := hpax', shared := hshared'.trans hshared, long := hlong'.trans hlong, user := huser'.trans huser
        header := hheader', rest := hrest' }, loop_go hstep⟩
  · rw [if_neg hneed] at hsecond
    cases hsecond
    have hnone : e.readPax payload pax = e.paxOver pax := paxOnto_none (Bool.eq_false_of_not_eq_true hneed) _
    exact ⟨s, 0, Nat.zero_le _, .refl s,
      { pax := hpax.trans hnone.symm, shared := hshared, long := hlong, user := huser, header := hheader
        rest := hrest },
      fun _ => rfl⟩

end

/-- At the header of the member the reader finds declared what was written of it: the map, padded, and the data. -/
def Declares (e : SparseEntry) (stream : Bool) (payload written : Bytes) : Prop :=
  ∃ (front header body : Bytes) (s : VisitState (List VisitEvent)),
    written = front ++ (header ++ (body ++ zeroPadding body.length)) ∧ header.length = blockSize ∧
      body = paddedMap e.extents ++ payload ∧
      Visits (visitStep (sparseOps stream) {})
        { input := { rest := written ++ writeTrailer written.length }, user := [] } s ∧
      s.input.rest = header ++ ((body ++ zeroPadding body.length) ++ writeTrailer written.length) ∧
      headerPayloadSize header (paxEffectiveInfo s.shared s.pax).numbers = some body.length

/-- The payload is written in `chunks`, and read with `stream` in chunks of the reader's own. -/
def RoundTrips (e : SparseEntry) (decode : Codec → Bytes → Option Bytes) (detectAll stream : Bool) (payload : Bytes)
    (chunks : List Bytes) : Prop :=
  ∃ written log entry, e.write chunks = some written ∧
    visitArchiveInput decode detectAll (sparseOps stream) {} (written ++ writeTrailer written.length) [] = some log ∧
    ShowsOne log entry (shownData stream payload) ∧ entry.data = ownData stream payload ∧ e.Same entry ∧
    e.Declares stream payload written

section
variable (h : e.WellFormed payload)
include h

variable {records : Bytes}

theorem paxMember_eq (hrecords : e.paxMember = some records) :
    ∃ data name pax, records = (paxHeader name data.length).block ++ (data ++ zeroPadding data.length) ∧
      name.name = ascii "./PaxHeaders/bx" ∧ data.length ≤ ustarSizeTimeMax ∧ OnlyMetadata {} pax ∧
      parsePaxRecords false false {} data = some (e.paxOver pax) := by
  obtain ⟨data, pax, hdata, hlength, honly, hread⟩ := paxData_read h
  obtain ⟨name, hname⟩ : ∃ name, splitUstarName (ascii "./PaxHeaders/bx") false = some name := ⟨_, rfl⟩
  have htext : name.name = ascii "./PaxHeaders/bx" := by
    cases hname
    rfl
  unfold paxMember at hrecords
  rw [hdata, hname] at hrecords
  cases hrecords
  refine ⟨data, name, pax, ?_, htext, hlength, honly, hread⟩
  rw [append_assoc]

theorem codec_none (hrecords : e.paxMember = some records) (detectAll : Bool) (more : Bytes) :
    inputCodec detectAll (records ++ more) = none := by
  obtain ⟨data, name, pax, hshape, hname, _⟩ := paxMember_eq h hrecords
  obtain ⟨rest, hrest⟩ := name_prefix_block (paxHeader name data.length)
  have hplain : inputCodec detectAll (textField 100 name.name) = none := by
    rw [hname]
    cases detectAll <;> decide
  have hfront : records ++ more = textField 100 name.name ++ (rest ++ ((data ++ zeroPadding data.length) ++ more)) := by
    have hname' : (paxHeader name data.length).name.name = name.name := rfl
    rw [hshape, ← hrest, hname']
    simp
  rw [hfront, inputCodec_append detectAll (by simp), hplain]

/-- **Main result.** A sparse entry comes back, and its declared size is what was written. -/
theorem sparse_roundTrips (decode : Codec → Bytes → Option Bytes) (detectAll stream : Bool) {chunks : List Bytes}
    (hchunks : chunks.flatten = payload) : e.RoundTrips decode detectAll stream payload chunks := by
  obtain ⟨records, second, hrecords, hsecond, hwrite⟩ := write_eq h hchunks
  obtain ⟨data, name, pax, hshape, _, hlength, honly, hread⟩ := paxMember_eq h hrecords
  obtain ⟨written, hwritten⟩ : ∃ written, records ++ (second ++ ((e.mainHeader payload).block ++
      (e.body payload ++ zeroPadding (e.body payload).length))) = written := ⟨_, rfl⟩
  rw [hwritten] at hwrite
  obtain ⟨n, htrailer, hn⟩ := two_blocks_le_trailer written.length
  let start : VisitState (List VisitEvent) :=
    { input := { rest := written ++ writeTrailer written.length }, user := [] }
  obtain ⟨first, hfirst, hrest, hheader, hpax, hshared, hlong, huser⟩ :=
    @visitStep_paxMember _ (sparseOps stream) start name data
      (second ++ ((e.mainHeader payload).block ++
        ((e.body payload ++ zeroPadding (e.body payload).length) ++ writeTrailer written.length)))
      (e.paxOver pax) rfl
      (by
        have hstart : start.input.rest = written ++ writeTrailer written.length := rfl
        rw [hstart, ← hwritten, hshape]
        simp only [append_assoc]) hlength hread
  obtain ⟨next, steps, hsteps, hvisits, hat, hrun⟩ :=
    visits_member h stream hsecond hpax hshared hlong huser hheader hrest
  have hrest' := hat.rest
  rw [htrailer] at hrest'
  obtain ⟨log, entry, hlog, hshows, hdata, hsame⟩ :=
    run_sparse h stream honly hat.pax hat.shared hat.long hat.user hat.header hn hrest'
      ((written ++ writeTrailer written.length).length - 2 - steps)
  have hfuel : (written ++ writeTrailer written.length).length + 1 =
      (written ++ writeTrailer written.length).length - 2 - steps + 2 + steps + 1 := by
    rw [htrailer, length_append, length_replicate]
    unfold blockSize at hn
    omega
  have hcodec : inputCodec detectAll (written ++ writeTrailer written.length) = none := by
    rw [← hwritten, append_assoc]
    exact codec_none h hrecords detectAll _
  have hread' : visitArchiveInput decode detectAll (sparseOps stream) {} (written ++ writeTrailer written.length) [] =
      some log := by
    unfold visitArchiveInput visitArchiveStream
    rw [hcodec]
    dsimp only
    rw [hfuel, loop_go hfirst, hrun, hlog]
    rfl
  have hdeclared : headerPayloadSize (e.mainHeader payload).block (paxEffectiveInfo next.shared next.pax).numbers =
      some (e.body payload).length := by
    rw [hat.shared]
    exact declared_size h honly hat.pax
  refine ⟨written, log, entry, hwrite, hread', hshows, hdata, hsame, records ++ second, (e.mainHeader payload).block,
    e.body payload, next, ?_, (e.mainHeader payload).length_block, rfl, .go hfirst hvisits, hat.rest, hdeclared⟩
  rw [← hwritten, append_assoc]

end

def holes : SparseEntry where
  path := ascii "a"
  mode := 0o644
  uid := 0
  gid := 0
  extents := [⟨1, 1⟩]
  logicalSize := 3
  compactSize := 1
  mtime := ⟨0, 0⟩

theorem holes_wellFormed : holes.WellFormed [7] where
  path_text := by decide
  path_length := by decide
  uid := by decide
  gid := by decide
  nsec := by decide
  sec := by decide
  extents := by decide
  extent := by decide
  logicalSize := by decide
  compactSize := rfl
  extentSizes := rfl
  room := by
    rw [length_paddedMap]
    decide
  metadata := ⟨[], {}, rfl, Nat.zero_le _, rfl⟩

theorem sparse_roundTrips_holes : holes.RoundTrips (fun _ _ => none) true true [7] [[], [7]] :=
  sparse_roundTrips holes_wellFormed (fun _ _ => none) true true rfl

end SparseEntry

end Bx.Tar
