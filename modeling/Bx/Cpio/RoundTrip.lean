import Bx.Cpio.Written

/-!
# Reading back what was written

A record at an aligned place passes every check of the reader, which sees the
entry as it was written. Only the budget for metadata can still refuse it.
-/

namespace Bx.Cpio
open Kit Lib List

/-! ## Headers -/

def archivedDevice (format : Format) (dev : Nat) : Nat :=
  match format with
  | .newc => major dev <<< 32 ||| minor dev
  | .odc => dev

def headerRead (format : Format) (h : HeaderFields) : Header :=
  ⟨h.ino, h.mode, h.uid, h.gid, h.nlink, h.mtime.toNat, h.size, namesize h, archivedDevice format h.device,
    major h.rdev, minor h.rdev⟩

theorem parseHeader_headerBytes {format : Format} {h : HeaderFields} (hfit : FieldsFit format h) :
    parseHeader format (headerBytes format h) = some (headerRead format h) := by
  have hencode := (encodeFields_iff format.bits_cases (layout_width format h (namesize h)) _).mpr ⟨hfit.2, rfl⟩
  have hmagic : format.magic.length = 6 := by
    cases format with
    | newc => simp [Format.magic, ascii]
    | odc => simp [Format.magic, ascii]
  have htake : (headerBytes format h).take 6 = format.magic := take_left' hmagic
  have hat : ∀ (i offset width value : Nat), (layout format h (namesize h))[i]? = some (width, value) →
      6 + (((layout format h (namesize h)).take i).map Prod.fst).sum = offset →
      numberAt format.bits (headerBytes format h) offset width = some value := by
    intro i offset width value hget hoffset
    rw [← hmagic] at hoffset
    exact numberAt_encodeFields format.bits_cases (layout_width format h (namesize h))
      (layout_small format h (namesize h)) hencode hget hoffset
  cases format with
  | newc =>
    have hsame : ¬(Format.newc.magic ≠ ascii "070701") := fun hne => hne rfl
    have hnewc : ∀ (i value : Nat), (newcFields h (namesize h))[i]? = some value →
        numberAt 4 (headerBytes .newc h) (6 + 8 * i) 8 = some value := by
      intro i value hget
      have hlt := (List.getElem?_eq_some_iff.mp hget).1
      apply hat i
      · simp [layout, newcLayout, hget]
      · simp only [layout, newcLayout, ← map_take, map_map]
        have hconst : (Prod.fst ∘ fun value : Nat => (8, value)) = fun _ => 8 := rfl
        rw [hconst, map_const', sum_replicate_nat, length_take, min_eq_left (by omega), mul_comm]
    simp only [parseHeader, parseNewcHeader, htake]
    rw [if_neg hsame]
    rw [hnewc 0 h.ino rfl, hnewc 1 h.mode rfl, hnewc 2 h.uid rfl, hnewc 3 h.gid rfl, hnewc 4 h.nlink rfl,
      hnewc 5 h.mtime.toNat rfl, hnewc 6 h.size rfl, hnewc 7 (major h.device) rfl, hnewc 8 (minor h.device) rfl,
      hnewc 9 (major h.rdev) rfl, hnewc 10 (minor h.rdev) rfl, hnewc 11 (namesize h) rfl, hnewc 12 0 rfl]
    rfl
  | odc =>
    have hsame : ¬(Format.odc.magic ≠ ascii "070707") := fun hne => hne rfl
    have hodc : ∀ (i offset width value : Nat), (odcFields h (namesize h))[i]? = some value →
        6 + (([6, 6, 6, 6, 6, 6, 6, 11, 6, 11] : List Nat).take i).sum = offset → (if i = 7 ∨ i = 9 then 11 else 6) = width →
        numberAt 3 (headerBytes .odc h) offset width = some value := by
      intro i offset width value hget hoffset hwidth
      have hwidths : (layout .odc h (namesize h)).map Prod.fst = [6, 6, 6, 6, 6, 6, 6, 11, 6, 11] := rfl
      apply hat i
      · simp [layout, odcLayout, hget, hwidth]
      · rw [map_take, hwidths]
        exact hoffset
    simp only [parseHeader, parseOdcHeader, htake]
    rw [if_neg hsame]
    rw [hodc 0 6 6 h.device rfl (by decide) rfl, hodc 1 12 6 h.ino rfl (by decide) rfl,
      hodc 2 18 6 h.mode rfl (by decide) rfl, hodc 3 24 6 h.uid rfl (by decide) rfl,
      hodc 4 30 6 h.gid rfl (by decide) rfl, hodc 5 36 6 h.nlink rfl (by decide) rfl,
      hodc 6 42 6 h.rdev rfl (by decide) rfl, hodc 7 48 11 h.mtime.toNat rfl (by decide) rfl,
      hodc 8 59 6 (namesize h) rfl (by decide) rfl, hodc 9 65 11 h.size rfl (by decide) rfl]
    rfl

/-! ## Places in an archive -/

theorem readAt_part {s : Spool} {a b c : Bytes} (hs : s.bytes = a ++ (b ++ c)) {offset len : Nat}
    (hoffset : a.length = offset) (hlen : b.length = len) : s.readAt offset len = b := by
  rw [Spool.readAt, hs, drop_left' hoffset, take_left' hlen]

variable {offset : Nat} {a c : Bytes}

theorem zeroRange_part {s : Spool} {len : Nat} (hs : s.bytes = a ++ (replicate len 0 ++ c))
    (hoffset : a.length = offset) : s.zeroRange offset len = true := by
  rw [Spool.zeroRange, readAt_part hs hoffset length_replicate]
  simp [zeroPadding]

theorem validateName_part {s : Spool} (name : CText) (hs : s.bytes = a ++ ((name.val ++ [0]) ++ c))
    (hoffset : a.length = offset) :
    validateName s offset (name.val.length + 1) = ⟨true, name.val == trailerName⟩ := by
  have hlen : (name.val ++ [0]).length = name.val.length + 1 := length_append
  have hread := readAt_part hs hoffset hlen
  have hfree : name.val.contains 0 = false := by simpa using name.property
  have htrailer : (name.val ++ [0] == trailerName ++ [0]) = (name.val == trailerName) := by
    rw [Bool.eq_iff_iff, beq_iff_eq, beq_iff_eq]
    exact ⟨fun h => append_cancel_right h, fun h => by rw [h]⟩
  simp only [validateName, hread]
  rw [getLast?_concat, dropLast_concat, hfree, htrailer]
  rfl

section
variable {format : Format} {h : HeaderFields} {payload before after : Bytes} {s : Spool}

def dataOffset (format : Format) (h : HeaderFields) (start : Nat) : Nat := start + (front format h).length

def nextOffset (format : Format) (h : HeaderFields) (payload : Bytes) (start : Nat) : Nat :=
  start + (record format h payload).length

variable (hs : s.bytes = before ++ (record format h payload ++ after)) (halign : format.alignment ∣ before.length)
include hs

theorem readAt_data : s.readAt (dataOffset format h before.length) payload.length = payload := by
  have hparts : s.bytes = (before ++ front format h) ++ (payload ++
      (replicate (padding payload.length format.alignment) 0 ++ after)) := by
    rw [hs]
    simp only [record, append_assoc]
  exact readAt_part hparts length_append rfl

include halign

theorem memberBounds_record (hname : h.name.val ≠ []) (hsize : h.size = payload.length) :
    memberBounds s.bytes.length (before.length + format.headerLen) (namesize h) h.size format.alignment format.alignment
      = some ⟨dataOffset format h before.length, nextOffset format h payload before.length⟩ := by
  have hlt := s.length_lt
  have hfront := length_front format h
  have hrecord := length_record format h payload
  have hpos : 0 < h.name.val.length := length_pos_iff.mpr hname
  have hn : namesize h = h.name.val.length + 1 := rfl
  have hlen : s.bytes.length = before.length + ((record format h payload).length + after.length) := by
    rw [hs, length_append, length_append]
  have hpad : padding (before.length + format.headerLen + namesize h) format.alignment
      = padding (format.headerLen + namesize h) format.alignment := by
    rw [add_assoc]
    exact padding_add_of_dvd halign _
  have hdata : before.length + format.headerLen + namesize h + padding (format.headerLen + namesize h) format.alignment
      = dataOffset format h before.length := by
    rw [dataOffset, hfront]
    omega
  have hpad' : padding (dataOffset format h before.length + payload.length) format.alignment
      = padding payload.length format.alignment :=
    padding_add_of_dvd (Nat.dvd_add halign (dvd_front format h)) _
  have hnext : dataOffset format h before.length + payload.length + padding payload.length format.alignment
      = nextOffset format h payload before.length := by
    rw [dataOffset, nextOffset, hrecord]
    omega
  have hfits : nextOffset format h payload before.length ≤ s.bytes.length := by
    rw [nextOffset, hlen]
    omega
  unfold memberBounds
  rw [if_neg (by omega), checkedAdd_of_lt (by omega), hsize]
  simp only [Option.bind_eq_bind, Option.bind_some]
  rw [if_neg (by omega), checkedRoundUp_of_lt format.alignment_pos (by rw [hpad]; omega), hpad, hdata]
  simp only [Option.bind_some]
  rw [checkedAdd_of_lt (by omega)]
  simp only [Option.bind_some]
  rw [if_neg (by omega), checkedRoundUp_of_lt format.alignment_pos (by rw [hpad']; omega), hpad', hnext]
  simp only [Option.bind_some]
  rw [if_neg (by omega)]

end

/-! ## One turn of the loop -/

def trailerStep (format : Format) (s : Spool) (h : Header) (nextOffset : Nat) : Except Diag Step := do
  check (diag ("invalid " ++ format.label ++ " trailer")) (h.size == 0)
  check (diag "trailing data after cpio trailer") (s.zeroRange nextOffset (s.bytes.length - nextOffset))
  .ok .trailer

def memberStep (s : Spool) (h : Header) (text : Bytes) (dataOffset nextOffset count bytes : Nat) : Except Diag Step := do
  check (diag "unrepresentable cpio metadata") (!unrepresentable h)
  let bytes ← orFail (diag "cpio member metadata limit exceeded")
    (memberMetadataBudget count bytes h.mode h.namesize h.size)
  let rdev ←
    if isChr h.mode || isBlk h.mode then
      orFail ⟨some text, "invalid device metadata"⟩ (deviceFromNumbers h.rdevMajor h.rdevMinor)
    else .ok 0
  let entry ← parsePayload s dataOffset
    ⟨text, .reg, h.mode, h.uid, h.gid, h.nlink, h.mtime, h.ino % 2 ^ 32, h.device, rdev, h.size, none, none⟩
  .ok (.member entry nextOffset bytes)

theorem orFail_bind_some {α β : Type} (d : Diag) (a : α) (next : α → Except Diag β) :
    (orFail d (some a) >>= next) = next a := rfl

theorem check_bind_true {β : Type} (d : Diag) (next : Unit → Except Diag β) : (check d true >>= next) = next () := rfl

section
variable {format : Format} {h : HeaderFields} {payload before after : Bytes} {s : Spool}
variable (hs : s.bytes = before ++ (record format h payload ++ after)) (halign : format.alignment ∣ before.length)
variable (hfit : FieldsFit format h) (hname : h.name.val ≠ []) (hsize : h.size = payload.length)
include hs halign hfit hname hsize

theorem parseMember_record (count bytes : Nat) : parseMember format s before.length count bytes
      = if h.name.val == trailerName then
          trailerStep format s (headerRead format h) (nextOffset format h payload before.length)
        else memberStep s (headerRead format h) h.name.val (dataOffset format h before.length)
          (nextOffset format h payload before.length) count bytes := by
  have hheaderLen := length_headerBytes format h
  have hfront := length_front format h
  have hrecord := length_record format h payload
  have hn : namesize h = h.name.val.length + 1 := rfl
  have hheader : s.readAt before.length format.headerLen = headerBytes format h := by
    refine readAt_part (c := h.name.val ++ [0] ++ replicate (padding (format.headerLen + namesize h) format.alignment) 0
      ++ payload ++ replicate (padding payload.length format.alignment) 0 ++ after) ?_ rfl hheaderLen
    rw [hs]
    simp only [record, front, append_assoc]
  have hbefore : (before ++ headerBytes format h).length = before.length + format.headerLen := by
    rw [length_append, hheaderLen]
  have hnameAt : s.bytes = (before ++ headerBytes format h) ++ ((h.name.val ++ [0])
      ++ (replicate (padding (format.headerLen + namesize h) format.alignment) 0
      ++ (payload ++ (replicate (padding payload.length format.alignment) 0 ++ after)))) := by
    rw [hs]
    simp only [record, front, append_assoc]
  have hvalid := validateName_part h.name hnameAt hbefore
  rw [← hn] at hvalid
  have htext : cText (s.readAt (before.length + format.headerLen) (namesize h)) = h.name.val := by
    rw [readAt_part hnameAt hbefore (by rw [length_append, hn]; rfl)]
    exact cText_append_zero h.name.property []
  have hnamePad : s.zeroRange (before.length + format.headerLen + namesize h)
      (dataOffset format h before.length - (before.length + format.headerLen + namesize h)) = true := by
    have hlen : dataOffset format h before.length - (before.length + format.headerLen + namesize h)
        = padding (format.headerLen + namesize h) format.alignment := by
      rw [dataOffset, hfront]
      omega
    rw [hlen]
    refine zeroRange_part (a := before ++ headerBytes format h ++ (h.name.val ++ [0]))
      (c := payload ++ (replicate (padding payload.length format.alignment) 0 ++ after)) ?_ ?_
    · rw [hs]
      simp only [record, front, append_assoc]
    · rw [length_append, hbefore, hn, length_append]
      rfl
  have hdataPad : s.zeroRange (dataOffset format h before.length + h.size)
      (nextOffset format h payload before.length - (dataOffset format h before.length + h.size)) = true := by
    have hlen : nextOffset format h payload before.length - (dataOffset format h before.length + h.size)
        = padding payload.length format.alignment := by
      rw [nextOffset, dataOffset, hrecord, hsize]
      omega
    rw [hlen]
    refine zeroRange_part (a := before ++ front format h ++ payload) (c := after) ?_ ?_
    · rw [hs]
      simp only [record, append_assoc]
    · rw [length_append, length_append, dataOffset, hsize]
  have hbounds := memberBounds_record hs halign hname hsize
  simp only [parseMember, hheader, parseHeader_headerBytes hfit, orFail_bind_some]
  simp only [headerRead] at hbounds ⊢
  simp only [hbounds, orFail_bind_some, hvalid, check_bind_true, hnamePad, hdataPad, Bool.and_self, htext]
  rfl

end

/-! ## Entries -/

/-- An entry that the archive formats can tell from others: a regular file, a directory, a link with a target or a
FIFO, with a name -/
structure Archivable (em : Emission) : Prop where
  name : em.entry.archivePath.val ≠ []
  kind : isReg em.entry.mode.toNat = true ∨ isDir em.entry.mode.toNat = true ∨ isLnk em.entry.mode.toNat = true
    ∨ isFifo em.entry.mode.toNat = true
  target : isLnk em.entry.mode.toNat = true → em.entry.linkTarget.val ≠ []

def kindOf (mode : Nat) : Kind :=
  if isReg mode then .reg
  else if isLnk mode then .symlink
  else if isDir mode then .dir
  else .fifo

def memberOf (opts : Options) (em : Emission) (dataOffset : Nat) : Member :=
  let h := headerOf opts em
  { name := h.name.val
    kind := kindOf h.mode
    mode := h.mode
    uid := h.uid
    gid := h.gid
    nlink := h.nlink
    mtime := h.mtime.toNat
    ino := h.ino
    device := archivedDevice opts.format h.device
    rdev := 0
    size := h.size
    linkTarget := if isLnk h.mode then some (payloadOf em) else none
    data := if isReg h.mode then some (dataOffset, h.size) else none }

def metadataCost (em : Emission) : Nat :=
  sizeofEntry + (em.entry.archivePath.val.length + 1)
    + if isLnk em.entry.mode.toNat then em.entry.linkTarget.val.length + 1 else 0

theorem and_unknown_bits {mode : Nat} (h : mode < 2 ^ 16) : mode &&& (uintmaxMax - 0o177777) = 0 := by
  apply Nat.eq_of_testBit_eq
  intro i
  rw [Nat.testBit_and, Nat.zero_testBit]
  by_cases hlow : i < 16
  · have hmask : ∀ i < 16, Nat.testBit (uintmaxMax - 0o177777) i = false := by decide
    rw [hmask i hlow, Bool.and_false]
  · have hle : 2 ^ 16 ≤ 2 ^ i := Nat.pow_le_pow_right (by decide) (by omega)
    rw [Nat.testBit_lt_two_pow (by omega), Bool.false_and]

section
variable {opts : Options} {em : Emission}

theorem headerOf_representable (hfit : Fits opts em) : unrepresentable (headerRead opts.format (headerOf opts em)) = false := by
  have hmode := em.entry.mode_lt
  have huid := em.entry.uid.toNat_lt
  have hgid := em.entry.gid.toNat_lt
  have howner := opts.owner.toNat_lt
  have hgroup := opts.group.toNat_lt
  have hnlink := em.entry.nlink.toNat_lt
  have hmtime := mtime_le_wideLimit hfit.1
  have hwide : opts.format.wideLimit < 2 ^ 63 := by
    cases opts.format with
    | newc => decide
    | odc => decide
  have hbits := and_unknown_bits hmode
  have hm : (headerOf opts em).mode < 2 ^ 32 := by
    have heq : (headerOf opts em).mode = em.entry.mode.toNat := rfl
    omega
  have hu : (headerOf opts em).uid < 2 ^ 32 := by
    simp only [headerOf]
    split
    · omega
    · split <;> omega
  have hg : (headerOf opts em).gid < 2 ^ 32 := by
    simp only [headerOf]
    split
    · omega
    · split <;> omega
  have hl : (headerOf opts em).nlink < 2 ^ 64 := by
    simp only [headerOf]
    split <;> omega
  have hfirst : (headerOf opts em).mode &&& (uintmaxMax - 0o177777) = 0 := hbits
  simp only [unrepresentable, headerRead, hfirst, Bool.or_eq_false_iff, bne_self_eq_false]
  exact ⟨⟨⟨⟨⟨trivial, decide_eq_false (Nat.not_le.mpr hm)⟩, decide_eq_false (Nat.not_le.mpr hu)⟩,
    decide_eq_false (Nat.not_le.mpr hg)⟩, decide_eq_false (Nat.not_le.mpr hl)⟩,
    decide_eq_false (Nat.not_le.mpr (by omega))⟩

theorem ino_lt (hfit : Fits opts em) : (headerOf opts em).ino < 2 ^ 32 := by
  have hall := hfit.1.2
  cases hformat : opts.format with
  | newc =>
    rw [hformat] at hall
    exact hall (8, (headerOf opts em).ino) (by simp [layout, newcLayout, newcFields])
  | odc =>
    rw [hformat] at hall
    have hlt := hall (6, (headerOf opts em).ino) (by simp [layout, odcLayout, odcFields])
    simp only [Format.bits] at hlt
    omega

theorem memberMetadataBudget_entry {count bytes : Nat} (hbytes : bytes ≤ memberByteLimit)
    (hsmall : em.entry.archivePath.val.length + (payloadOf em).length < 2 ^ 63) :
    memberMetadataBudget count bytes em.entry.mode.toNat (em.entry.archivePath.val.length + 1) (payloadOf em).length
      = if count < memberCountLimit ∧ bytes + metadataCost em ≤ memberByteLimit then some (bytes + metadataCost em)
        else none := by
  have hcost : memberMetadataBudget count bytes em.entry.mode.toNat (em.entry.archivePath.val.length + 1)
      (payloadOf em).length = metadataBudget count bytes (metadataCost em) memberCountLimit memberByteLimit := by
    unfold memberMetadataBudget metadataCost
    rw [checkedAdd_of_lt (by unfold sizeofEntry; omega)]
    cases hlink : isLnk em.entry.mode.toNat with
    | false => rfl
    | true =>
      have hpayload : payloadOf em = em.entry.linkTarget.val := by
        unfold payloadOf
        rw [if_pos hlink]
      rw [hpayload] at hsmall ⊢
      simp only [if_true, Option.bind_eq_bind, Option.bind_some]
      rw [checkedAdd_of_lt (by unfold sizeofEntry; omega), Option.bind_some,
        checkedAdd_of_lt (by unfold sizeofEntry; omega), add_assoc _ em.entry.linkTarget.val.length 1]
      rfl
  rw [hcost]
  unfold metadataBudget
  by_cases hfits : count < memberCountLimit ∧ bytes + metadataCost em ≤ memberByteLimit
  · rw [if_pos hfits, if_pos ⟨hfits.1, hbytes, by omega⟩]
    apply checkedAdd_of_lt
    have hle := hfits.2
    unfold memberByteLimit at hle
    omega
  · rw [if_neg hfits, if_neg]
    intro ⟨hcount, _, hextra⟩
    exact hfits ⟨hcount, by omega⟩

theorem kind_cases (harch : Archivable em) :
    (fileType em.entry.mode.toNat = 0o100000 ∨ fileType em.entry.mode.toNat = 0o040000)
      ∨ fileType em.entry.mode.toNat = 0o120000 ∨ fileType em.entry.mode.toNat = 0o010000 := by
  cases harch.kind with
  | inl h => exact Or.inl (Or.inl (eq_of_beq h))
  | inr h =>
    cases h with
    | inl h => exact Or.inl (Or.inr (eq_of_beq h))
    | inr h =>
      cases h with
      | inl h => exact Or.inr (Or.inl (eq_of_beq h))
      | inr h => exact Or.inr (Or.inr (eq_of_beq h))

theorem parsePayload_entry {s : Spool} {dataOffset : Nat} (harch : Archivable em)
    (hread : s.readAt dataOffset (payloadOf em).length = payloadOf em) :
    parsePayload s dataOffset ⟨(headerOf opts em).name.val, .reg, (headerOf opts em).mode, (headerOf opts em).uid,
        (headerOf opts em).gid, (headerOf opts em).nlink, (headerOf opts em).mtime.toNat, (headerOf opts em).ino,
        archivedDevice opts.format (headerOf opts em).device, 0, (headerOf opts em).size, none, none⟩
      = .ok (memberOf opts em dataOffset) := by
  have hmode : (headerOf opts em).mode = em.entry.mode.toNat := rfl
  have hsize : (headerOf opts em).size = (payloadOf em).length := rfl
  unfold parsePayload memberOf kindOf
  dsimp only
  rw [hmode, hsize]
  have hkind := kind_cases harch
  have htarget := harch.target
  cases hkind with
  | inl hplain =>
    cases hplain with
    | inl hreg => simp [isReg, isLnk, hreg]
    | inr hdir =>
      have hnone : payloadOf em = [] := by simp [payloadOf, isReg, isLnk, hdir]
      simp [isReg, isLnk, isDir, hdir, hnone]
      rfl
  | inr hspecial =>
    cases hspecial with
    | inl hlink =>
      have hpayload : payloadOf em = em.entry.linkTarget.val := by simp [payloadOf, isLnk, hlink]
      have hvalid : symlinkTargetValid (payloadOf em) = true := by
        rw [hpayload]
        have hsome := htarget (by simp [isLnk, hlink])
        simp [symlinkTargetValid, hsome, em.entry.linkTarget.property]
      simp only [isReg, isLnk, hlink, hread, hvalid]
      simp
    | inr hfifo =>
      have hnone : payloadOf em = [] := by simp [payloadOf, isReg, isLnk, hfifo]
      simp [isReg, isLnk, isDir, isFifo, hfifo, hnone]
      rfl

theorem memberStep_entry {s : Spool} {dataOffset nextOffset count bytes : Nat} (harch : Archivable em)
    (hfit : Fits opts em) (hread : s.readAt dataOffset (payloadOf em).length = payloadOf em)
    (hbytes : bytes ≤ memberByteLimit) (hsmall : em.entry.archivePath.val.length + (payloadOf em).length < 2 ^ 63) :
    memberStep s (headerRead opts.format (headerOf opts em)) (headerOf opts em).name.val dataOffset nextOffset count bytes
      = if count < memberCountLimit ∧ bytes + metadataCost em ≤ memberByteLimit then
          .ok (.member (memberOf opts em dataOffset) nextOffset (bytes + metadataCost em))
        else .error (diag "cpio member metadata limit exceeded") := by
  have hbudget := @memberMetadataBudget_entry em count bytes hbytes hsmall
  have hspecial : (isChr em.entry.mode.toNat || isBlk em.entry.mode.toNat) = false := by
    cases kind_cases harch with
    | inl hplain =>
      cases hplain with
      | inl h => simp [isChr, isBlk, h]
      | inr h => simp [isChr, isBlk, h]
    | inr hother =>
      cases hother with
      | inl h => simp [isChr, isBlk, h]
      | inr h => simp [isChr, isBlk, h]
  have hmode : (headerOf opts em).mode = em.entry.mode.toNat := rfl
  have hsize : (headerOf opts em).size = (payloadOf em).length := rfl
  have hname : namesize (headerOf opts em) = em.entry.archivePath.val.length + 1 := rfl
  have hpayload := @parsePayload_entry opts em s dataOffset harch hread
  simp only [memberStep, headerOf_representable hfit, Bool.not_false, check_bind_true]
  simp only [headerRead, hmode, hsize, hname, hbudget, hspecial, Nat.mod_eq_of_lt (ino_lt hfit)]
  rw [hmode, hsize] at hpayload
  by_cases hfits : count < memberCountLimit ∧ bytes + metadataCost em ≤ memberByteLimit
  · rw [if_pos hfits, if_pos hfits, orFail_bind_some]
    simp only [Bool.false_eq_true, if_false]
    change (parsePayload s dataOffset _ >>= _) = _
    rw [hpayload]
    rfl
  · rw [if_neg hfits, if_neg hfits]
    rfl

end

/-! ## Whole archives -/

def payloadRead (s : Spool) (m : Member) : Bytes :=
  match m.data, m.linkTarget with
  | some (offset, len), _ => s.readAt offset len
  | none, some target => target
  | none, none => []

/-- The member shows the entry with the numbers that the options let the writer archive. -/
structure ReadBack (opts : Options) (s : Spool) (em : Emission) (m : Member) : Prop where
  name : m.name = em.entry.archivePath.val
  kind : m.kind = kindOf em.entry.mode.toNat
  mode : m.mode = em.entry.mode.toNat
  uid : m.uid = (headerOf opts em).uid
  gid : m.gid = (headerOf opts em).gid
  nlink : m.nlink = (headerOf opts em).nlink
  mtime : (m.mtime : Int) = em.entry.mtime.toInt
  ino : m.ino = (headerOf opts em).ino
  device : m.device = archivedDevice opts.format (headerOf opts em).device
  size : m.size = (payloadOf em).length
  payload : payloadRead s m = payloadOf em

def WithinBudget (ems : List Emission) : Prop :=
  ems.length ≤ memberCountLimit ∧ (ems.map metadataCost).sum ≤ memberByteLimit

theorem makedev_numbers {dev : Nat} (h : dev < 2 ^ 64) : makedev (major dev) (minor dev) = dev := by
  have hmajor : major dev % 2 ^ 12 = dev / 2 ^ 8 % 2 ^ 12 := by
    unfold major
    omega
  have hmajorHigh : major dev / 2 ^ 12 % 2 ^ 20 = dev / 2 ^ 44 := by
    unfold major
    omega
  have hminor : minor dev % 2 ^ 8 = dev % 2 ^ 8 := by
    unfold minor
    omega
  have hminorHigh : minor dev / 2 ^ 8 % 2 ^ 24 = dev / 2 ^ 20 % 2 ^ 24 := by
    unfold minor
    omega
  rw [makedev, hmajor, hmajorHigh, hminor, hminorHigh]
  omega

theorem archivedDevice_injective {format : Format} {a b : Nat} (ha : a < 2 ^ 64) (hb : b < 2 ^ 64)
    (h : archivedDevice format a = archivedDevice format b) : a = b := by
  cases format with
  | odc => exact h
  | newc =>
    have hlt : ∀ dev, minor dev < 2 ^ 32 := by
      intro dev
      unfold minor
      omega
    have hpair : ∀ dev, archivedDevice .newc dev = major dev * 2 ^ 32 + minor dev := by
      intro dev
      rw [archivedDevice, ← Nat.shiftLeft_add_eq_or_of_lt (hlt dev), Nat.shiftLeft_eq]
    rw [hpair, hpair] at h
    have hlta := hlt a
    have hltb := hlt b
    have hmajor : major a = major b := by omega
    have hminor : minor a = minor b := by omega
    rw [← makedev_numbers ha, ← makedev_numbers hb, hmajor, hminor]

/-- **Main result.** Records cannot be cut in two ways: the bytes tell the header, the payload and where the record ends. -/
theorem record_append_iff {format : Format} {h h' : HeaderFields} {payload payload' after after' : Bytes}
    (hfit : FieldsFit format h) (hfit' : FieldsFit format h') (hdev : h.device < 2 ^ 64 ∧ h.rdev < 2 ^ 64)
    (hdev' : h'.device < 2 ^ 64 ∧ h'.rdev < 2 ^ 64) (hsize : h.size = payload.length) (hsize' : h'.size = payload'.length) :
    record format h payload ++ after = record format h' payload' ++ after' ↔
      h = h' ∧ payload = payload' ∧ after = after' := by
  refine ⟨?_, ?_⟩
  · intro heq
    simp only [record, front, append_assoc] at heq
    obtain ⟨hheader, hrest⟩ := append_inj heq ((length_headerBytes _ _).trans (length_headerBytes _ _).symm)
    have hread := parseHeader_headerBytes hfit
    rw [hheader, parseHeader_headerBytes hfit', Option.some_inj] at hread
    unfold headerRead at hread
    injection hread with hino hmode huid hgid hnlink hmtime hlen hnamesize hdevice hmajor hminor
    obtain ⟨hname, hpadded⟩ := append_inj hrest (Nat.succ.inj hnamesize).symm
    have hname' : h.name = h'.name := Subtype.ext hname
    have hsame : h = h' := by
      have hrdev : h.rdev = h'.rdev := by
        rw [← makedev_numbers hdev.2, ← makedev_numbers hdev'.2, hmajor, hminor]
      have htime : h.mtime = h'.mtime := by
        have hpos := hfit.1
        have hpos' := hfit'.1
        omega
      have hdevice' := archivedDevice_injective hdev'.1 hdev.1 hdevice
      cases h
      cases h'
      simp_all
    subst hsame
    have hcut := append_cancel_left (append_cancel_left hpadded)
    obtain ⟨hpayload, hbehind⟩ := append_inj hcut (hsize.symm.trans hsize')
    rw [hpayload] at hbehind
    exact ⟨rfl, hpayload, append_cancel_left hbehind⟩
  · rintro ⟨hheader, hpayload, hafter⟩
    rw [hheader, hpayload, hafter]

theorem record_append_iff_trailer : record .newc trailerFields [] ++ [] ≠ record .newc trailerFields [] ++ [48] := by
  have hfit : FieldsFit .newc trailerFields := ⟨by decide, by decide⟩
  intro h
  have hafter := ((record_append_iff hfit hfit (by decide) (by decide) rfl rfl).mp h).2.2
  cases hafter

section
variable {opts : Options} {s : Spool}

theorem memberOf_readBack {em : Emission} (harch : Archivable em) (hfit : Fits opts em) {dataOffset : Nat}
    (hread : s.readAt dataOffset (payloadOf em).length = payloadOf em) : ReadBack opts s em (memberOf opts em dataOffset) := by
  have hmode : (headerOf opts em).mode = em.entry.mode.toNat := rfl
  refine ⟨rfl, rfl, rfl, rfl, rfl, rfl, ?_, rfl, rfl, rfl, ?_⟩
  · exact Int.toNat_of_nonneg hfit.1.1
  · unfold payloadRead memberOf
    dsimp only
    rw [hmode]
    cases kind_cases harch with
    | inl hplain =>
      cases hplain with
      | inl hreg =>
        simp only [isReg, hreg]
        exact hread
      | inr hdir => simp [isReg, isLnk, hdir, payloadOf]
    | inr hspecial =>
      cases hspecial with
      | inl hlink => simp [isReg, isLnk, hlink]
      | inr hfifo => simp [isReg, isLnk, hfifo, payloadOf]

theorem headerLen_le_record (format : Format) (h : HeaderFields) (payload : Bytes) :
    format.headerLen < (record format h payload).length := by
  rw [length_record, length_front]
  unfold namesize
  omega

theorem record_trailer (format : Format) : record format trailerFields [] = front format trailerFields := by
  have hpad : padding ([] : Bytes).length format.alignment = 0 := by
    cases format with
    | newc => rfl
    | odc => rfl
  rw [record, hpad, replicate_zero, append_nil, append_nil]

variable {k : Nat} {ems : List Emission}

theorem parseMember_trailer {before : Bytes}
    (hs : s.bytes = before ++ (front opts.format trailerFields ++ replicate k 0))
    (halign : opts.format.alignment ∣ before.length) (count bytes : Nat) :
    parseMember opts.format s before.length count bytes = .ok .trailer := by
  rw [← record_trailer] at hs
  have hzero : s.zeroRange (nextOffset opts.format trailerFields [] before.length)
      (s.bytes.length - nextOffset opts.format trailerFields [] before.length) = true := by
    have hlen : s.bytes.length - nextOffset opts.format trailerFields [] before.length = k := by
      rw [hs, length_append, length_append, length_replicate, nextOffset]
      omega
    rw [hlen]
    refine zeroRange_part (a := before ++ record opts.format trailerFields []) (c := []) ?_ ?_
    · rw [hs, append_nil, append_assoc]
    · rw [length_append, nextOffset]
  rw [parseMember_record hs halign (fieldsFit_trailer opts.format) (by decide) rfl]
  have hname : (trailerFields.name.val == trailerName) = true := beq_self_eq_true _
  have hsize : ((headerRead opts.format trailerFields).size == 0) = true := rfl
  rw [if_pos hname]
  unfold trailerStep
  rw [hsize, hzero]
  rfl

theorem parseEntries_records (harch : ∀ em ∈ ems, Archivable em)
    (hfit : ∀ em ∈ ems, em.entry.archivePath.val ≠ trailerName ∧ Fits opts em) {before : Bytes}
    (hs : s.bytes = before ++ (records opts ems ++ (front opts.format trailerFields ++ replicate k 0)))
    (halign : opts.format.alignment ∣ before.length) {fuel : Nat} (hfuel : ems.length < fuel) {entries : List Member}
    (hentries : entries.length ≤ memberCountLimit) {bytes : Nat} (hbytes : bytes ≤ memberByteLimit) :
    (entries.length + ems.length ≤ memberCountLimit ∧ bytes + (ems.map metadataCost).sum ≤ memberByteLimit →
        ∃ members, parseEntries opts.format s fuel before.length entries bytes = .ok (entries ++ members)
          ∧ List.Forall₂ (ReadBack opts s) ems members)
      ∧ (¬(entries.length + ems.length ≤ memberCountLimit ∧ bytes + (ems.map metadataCost).sum ≤ memberByteLimit) →
        ∃ d, parseEntries opts.format s fuel before.length entries bytes = .error d) := by
  induction ems generalizing before fuel entries bytes with
  | nil =>
    obtain ⟨fuel, rfl⟩ : ∃ n, fuel = n + 1 := ⟨fuel - 1, by rw [length_nil] at hfuel; omega⟩
    have hroom : before.length ≤ s.bytes.length ∧ opts.format.headerLen ≤ s.bytes.length - before.length := by
      have hlen := headerLen_le_record opts.format trailerFields []
      rw [record_trailer] at hlen
      rw [hs]
      simp only [records, flatMap_nil, nil_append, length_append]
      omega
    have hturn : parseEntries opts.format s (fuel + 1) before.length entries bytes = .ok entries := by
      unfold parseEntries
      rw [if_pos hroom, parseMember_trailer hs halign]
    rw [hturn]
    refine ⟨fun _ => ⟨[], by rw [append_nil], List.Forall₂.nil⟩, ?_⟩
    intro hover
    exact absurd ⟨hentries, hbytes⟩ hover
  | cons em ems ih =>
    obtain ⟨fuel, rfl⟩ : ∃ n, fuel = n + 1 := ⟨fuel - 1, by rw [length_cons] at hfuel; omega⟩
    obtain ⟨harchEm, harchRest⟩ := forall_mem_cons.mp harch
    obtain ⟨⟨hname, hfitEm⟩, hfitRest⟩ := forall_mem_cons.mp hfit
    have hrecords : s.bytes = before ++ (record opts.format (headerOf opts em) (payloadOf em)
        ++ (records opts ems ++ (front opts.format trailerFields ++ replicate k 0))) := by
      rw [hs]
      simp only [records, flatMap_cons, append_assoc]
    have hlen := headerLen_le_record opts.format (headerOf opts em) (payloadOf em)
    have htotal : s.bytes.length = before.length + ((record opts.format (headerOf opts em) (payloadOf em)).length
        + (records opts ems ++ (front opts.format trailerFields ++ replicate k 0)).length) := by
      rw [hrecords, length_append, length_append]
    have hroom : before.length ≤ s.bytes.length ∧ opts.format.headerLen ≤ s.bytes.length - before.length := by
      omega
    have hsmall : em.entry.archivePath.val.length + (payloadOf em).length < 2 ^ 63 := by
      have hlt := s.length_lt
      have hrecordLen := length_record opts.format (headerOf opts em) (payloadOf em)
      have hfrontLen := length_front opts.format (headerOf opts em)
      have hn : namesize (headerOf opts em) = em.entry.archivePath.val.length + 1 := rfl
      omega
    have hread := readAt_data hrecords
    have hplain : ((headerOf opts em).name.val == trailerName) = false := beq_eq_false_iff_ne.mpr hname
    have hturn := parseMember_record hrecords halign hfitEm.1 harchEm.name rfl entries.length bytes
    rw [hplain, if_neg Bool.false_ne_true, memberStep_entry harchEm hfitEm hread hbytes hsmall] at hturn
    unfold parseEntries
    rw [if_pos hroom, hturn, length_cons, map_cons, sum_cons]
    by_cases hbudget : entries.length < memberCountLimit ∧ bytes + metadataCost em ≤ memberByteLimit
    · rw [if_pos hbudget]
      dsimp only
      have hs' : s.bytes = (before ++ record opts.format (headerOf opts em) (payloadOf em))
          ++ (records opts ems ++ (front opts.format trailerFields ++ replicate k 0)) := by
        rw [hrecords, append_assoc]
      have halign' : opts.format.alignment ∣ (before ++ record opts.format (headerOf opts em) (payloadOf em)).length := by
        rw [length_append]
        exact Nat.dvd_add halign (dvd_record _ _ _)
      have hpos : nextOffset opts.format (headerOf opts em) (payloadOf em) before.length
          = (before ++ record opts.format (headerOf opts em) (payloadOf em)).length := by
        rw [nextOffset, length_append]
      have hcount : (entries ++ [memberOf opts em (dataOffset opts.format (headerOf opts em) before.length)]).length
          = entries.length + 1 := length_append
      have hrest := ih harchRest hfitRest hs' halign' (Nat.lt_of_succ_lt_succ hfuel)
        (by rw [hcount]; exact hbudget.1) hbudget.2
      rw [hcount] at hrest
      rw [hpos]
      refine ⟨?_, ?_⟩
      · intro hfits
        obtain ⟨members, hmembers, hall⟩ := hrest.1 ⟨by omega, by omega⟩
        refine ⟨memberOf opts em (dataOffset opts.format (headerOf opts em) before.length) :: members, ?_,
          List.Forall₂.cons (memberOf_readBack harchEm hfitEm hread) hall⟩
        rw [hmembers, append_assoc]
        rfl
      · intro hover
        exact hrest.2 (fun hfits => hover ⟨by omega, by omega⟩)
    · rw [if_neg hbudget]
      refine ⟨?_, fun _ => ⟨_, rfl⟩⟩
      intro hfits
      exact absurd ⟨by omega, by omega⟩ hbudget

theorem length_le_records (ems : List Emission) : ems.length ≤ (records opts ems).length := by
  induction ems with
  | nil => exact le_rfl
  | cons em ems ih =>
    have hlen := headerLen_le_record opts.format (headerOf opts em) (payloadOf em)
    simp only [records, flatMap_cons, length_append, length_cons] at ih ⊢
    omega

theorem parseArchive_built (harch : ∀ em ∈ ems, Archivable em) (hbuilt : buildArchive opts ems = .ok s) :
    (WithinBudget ems → ∃ members, parseArchive opts.format s = .ok members ∧ List.Forall₂ (ReadBack opts s) ems members)
      ∧ (¬WithinBudget ems → ∃ d, parseArchive opts.format s = .error d) := by
  obtain ⟨hfit, _, hbytes⟩ := (buildArchive_iff opts ems s).mp hbuilt
  have hs : s.bytes = [] ++ (records opts ems ++ (front opts.format trailerFields ++ replicate
      (padding ((records opts ems).length + (front opts.format trailerFields).length) opts.format.trailerAlignment) 0)) :=
    hbytes
  have hfuel : ems.length < s.bytes.length + 1 := by
    have hle := @length_le_records opts ems
    rw [hs, nil_append, length_append]
    omega
  have hnone : ([] : List Member).length ≤ memberCountLimit := Nat.zero_le _
  have hrun := parseEntries_records harch hfit hs (Nat.dvd_zero _) hfuel hnone (Nat.zero_le _)
  simp only [length_nil, zero_add, nil_append] at hrun
  exact hrun

end

/-- **Main result.** An archive is assembled exactly when every number fits its field and the whole fits a file, and its
members are read back as they were written exactly when their metadata keeps within the budget of the reader. -/
theorem archive_readsBack (opts : Options) (ems : List Emission) (harch : ∀ em ∈ ems, Archivable em) :
    ((∃ s, buildArchive opts ems = .ok s)
        ↔ (∀ em ∈ ems, em.entry.archivePath.val ≠ trailerName ∧ Fits opts em) ∧ (archiveBytes opts ems).length < 2 ^ 63)
      ∧ ∀ s, buildArchive opts ems = .ok s →
        (WithinBudget ems →
            ∃ members, parseArchive opts.format s = .ok members ∧ List.Forall₂ (ReadBack opts s) ems members)
          ∧ (¬WithinBudget ems → ∃ d, parseArchive opts.format s = .error d) := by
  refine ⟨⟨?_, ?_⟩, fun s hbuilt => parseArchive_built harch hbuilt⟩
  · intro ⟨s, hbuilt⟩
    obtain ⟨hfit, hroom, _⟩ := (buildArchive_iff opts ems s).mp hbuilt
    exact ⟨hfit, hroom⟩
  · intro ⟨hfit, hroom⟩
    exact ⟨⟨archiveBytes opts ems, hroom⟩, (buildArchive_iff opts ems _).mpr ⟨hfit, hroom, rfl⟩⟩

/-! ## A name that is too long for the reader -/

def plainOptions : Options := ⟨.newc, false, 0, 0, false⟩

variable (name : CText)

theorem emptyFile_mode : (0o100644 : UInt32).toNat < 2 ^ 16 := by decide

def emptyFile : Emission where
  entry := ⟨name, 0o100644, emptyFile_mode, 0, 0, 1, 0, 1, 0, 0, [], ⟨[], not_mem_nil⟩⟩
  syntheticIno := 0
  suppressData := false

theorem emptyFile_archivable {name : CText} (h : name.val ≠ []) : Archivable (emptyFile name) := by
  have hreg : isReg (0o100644 : UInt32).toNat = true := by decide
  have hlink : isLnk (0o100644 : UInt32).toNat = false := by decide
  refine ⟨h, Or.inl hreg, ?_⟩
  intro htrue
  exact absurd (hlink.symm.trans htrue) Bool.false_ne_true

theorem emptyFile_isLnk : isLnk (emptyFile name).entry.mode.toNat = false := by
  have hlink : isLnk (0o100644 : UInt32).toNat = false := by decide
  exact hlink

theorem emptyFile_payload : payloadOf (emptyFile name) = [] := by
  unfold payloadOf
  rw [emptyFile_isLnk, if_neg Bool.false_ne_true]
  exact ite_self []

theorem emptyFile_header : headerOf plainOptions (emptyFile name) = ⟨name, 1, 0o100644, 0, 0, 1, 0, 0, 0, 0⟩ := by
  have hspecial : (isChr (0o100644 : UInt32).toNat || isBlk (0o100644 : UInt32).toNat) = false := by decide
  simp only [headerOf, emptyFile_payload]
  simp only [emptyFile, hspecial]
  rfl

theorem shortName_noNul : 0 ∉ ascii "a" := by decide

def shortName : CText := ⟨ascii "a", shortName_noNul⟩

theorem archive_readsBack_one : ((∃ s, buildArchive plainOptions [emptyFile shortName] = .ok s)
        ↔ (∀ em ∈ [emptyFile shortName], em.entry.archivePath.val ≠ trailerName ∧ Fits plainOptions em)
          ∧ (archiveBytes plainOptions [emptyFile shortName]).length < 2 ^ 63)
      ∧ ∀ s, buildArchive plainOptions [emptyFile shortName] = .ok s →
        (WithinBudget [emptyFile shortName] → ∃ members, parseArchive .newc s = .ok members
            ∧ List.Forall₂ (ReadBack plainOptions s) [emptyFile shortName] members)
          ∧ (¬WithinBudget [emptyFile shortName] → ∃ d, parseArchive .newc s = .error d) :=
  archive_readsBack plainOptions [emptyFile shortName] (by
    intro em hem
    rw [mem_singleton.mp hem]
    exact emptyFile_archivable (by decide))

theorem exists_name (len : Nat) : ∃ name : CText, name.val.length = len :=
  ⟨⟨replicate len 97, fun h => absurd (eq_of_mem_replicate h) (by decide)⟩, length_replicate⟩

set_option maxRecDepth 4000 in
/-- The reader keeps 256 MiB of names at most, the name field holds more. -/
theorem archive_overBudget : ¬∀ (opts : Options) (ems : List Emission), (∀ em ∈ ems, Archivable em) →
      (∀ em ∈ ems, em.entry.archivePath.val ≠ trailerName ∧ Fits opts em) →
      ∀ s, buildArchive opts ems = .ok s → ∃ members, parseArchive opts.format s = .ok members := by
  intro hall
  obtain ⟨name, hlen⟩ := exists_name 268435456
  have hne : name.val ≠ [] := by
    intro hnil
    rw [hnil, length_nil] at hlen
    omega
  have hnotTrailer : name.val ≠ trailerName := by
    intro heq
    have hten : trailerName.length = 10 := by decide
    rw [heq] at hlen
    omega
  have harch : ∀ em ∈ [emptyFile name], Archivable em := by
    intro em hem
    rw [mem_singleton.mp hem]
    exact emptyFile_archivable hne
  have hsize : namesize (headerOf plainOptions (emptyFile name)) = 268435457 := by
    have hname : namesize (headerOf plainOptions (emptyFile name)) = name.val.length + 1 := rfl
    omega
  have hfit : ∀ em ∈ [emptyFile name], em.entry.archivePath.val ≠ trailerName ∧ Fits plainOptions em := by
    intro em hem
    rw [mem_singleton.mp hem]
    refine ⟨hnotTrailer, ⟨Int.le_refl 0, ?_⟩, fun _ => Nat.zero_le _⟩
    rw [hsize, emptyFile_header]
    simp [layout, plainOptions, newcLayout, newcFields, major, minor, Format.bits]
  have hroom : (archiveBytes plainOptions [emptyFile name]).length < 2 ^ 63 := by
    have hrecord : (records plainOptions [emptyFile name]).length
        = (record .newc (headerOf plainOptions (emptyFile name)) (payloadOf (emptyFile name))).length := by
      simp only [records, flatMap_cons, flatMap_nil, append_nil]
      rfl
    have hpayload : (payloadOf (emptyFile name)).length = 0 := by
      rw [emptyFile_payload]
      rfl
    have hpad := @padding_lt 4 (by decide) (Format.newc.headerLen + 268435457)
    have hend := @padding_lt 512 (by decide) ((records plainOptions [emptyFile name]).length
      + (front .newc trailerFields).length)
    have htrailer : (front .newc trailerFields).length ≤ 200 := by decide
    have hlast : padding 0 Format.newc.alignment = 0 := rfl
    rw [length_record, length_front, hsize, hpayload, hlast] at hrecord
    simp only [Format.headerLen, Format.alignment] at hrecord hpad
    simp only [archiveBytes, trailerBytes, length_append, length_replicate]
    simp only [plainOptions, Format.trailerAlignment] at hend hrecord ⊢
    omega
  obtain ⟨s, hs⟩ : ∃ s : Spool, s.bytes = archiveBytes plainOptions [emptyFile name] := ⟨⟨_, hroom⟩, rfl⟩
  have hbuilt := (buildArchive_iff plainOptions [emptyFile name] s).mpr ⟨hfit, hroom, hs⟩
  obtain ⟨members, hmembers⟩ := hall plainOptions [emptyFile name] harch hfit s hbuilt
  have hover : ¬WithinBudget [emptyFile name] := by
    intro hwithin
    obtain ⟨_, hcost⟩ := hwithin
    have heq : ([emptyFile name].map metadataCost).sum = sizeofEntry + (name.val.length + 1) := by
      rw [map_singleton, sum_singleton, metadataCost, emptyFile_isLnk, if_neg Bool.false_ne_true]
      rfl
    rw [heq] at hcost
    unfold sizeofEntry memberByteLimit at hcost
    omega
  obtain ⟨d, hd⟩ := (parseArchive_built harch hbuilt).2 hover
  rw [hmembers] at hd
  cases hd

end Bx.Cpio
