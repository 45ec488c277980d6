import Bx.Zip.Directory

/-!
# The directory reads back

Each record reads back as the entry it was written for, and the end records lead back to the first of them.
-/

namespace Bx.Zip
open Kit List

variable {x : Bool} {entries : List WriterEntry}

/-! ## Extra fields -/

theorem length_writeExtraFields (x : Bool) (uncomp comp : UInt64) (e : WriterEntry) :
    (writeExtraFields x (needZip64Extra e) uncomp comp false e).length
      = (getExtraLen x (needZip64Extra e) false (some e)).toNat := by
  cases hu : needUncomp64 e <;> cases hc : needComp64 e <;> cases ho : needOff64 e <;> cases x <;>
    simp [writeExtraFields, writeZip64Extra, writeAttrExtra, getExtraLen, needZip64Extra, zip64Vals, hu, hc, ho, Word.size]

theorem takeField_written (need : Bool) (current value : UInt64) (rest : Bytes) :
    takeField need current (pack (if need then [.u64 value] else []) ++ rest) = (if need then value else current, rest) := by
  cases need with
  | false => rfl
  | true => simp [takeField, readU64_bytes]

theorem zip64Payload_written {payload : Bytes} {sz : UInt16} (h : payload.length = sz.toNat) (more : Bytes) (fuel : Nat) :
    zip64Payload (fuel + 1) (pack [.u16 extraZip64, .u16 sz] ++ payload ++ more) = some payload := by
  unfold zip64Payload
  simp only [pack_cons, pack_nil, append_assoc, nil_append, readU16_bytes]
  rw [if_neg (by rw [length_append]; omega), if_pos trivial, take_left' h]

theorem sentinel_iff {need : Bool} {value : UInt64} (h : need = false → value < 0xffffffff) :
    ((if need then (0xffffffff : UInt32) else value.toUInt32) == 0xffffffff) = need := by
  cases need with
  | true => rfl
  | false =>
    have hlt := UInt64.lt_iff_toNat_lt.mp (h rfl)
    apply beq_eq_false_iff_ne.mpr
    intro heq
    have hnat := congrArg UInt32.toNat heq
    simp at hnat hlt
    omega

theorem toUInt32_toUInt64 {value : UInt64} (h : value < 0xffffffff) : value.toUInt32.toUInt64 = value := by
  have hlt := UInt64.lt_iff_toNat_lt.mp h
  apply UInt64.toNat_inj.mp
  simp at hlt ⊢
  omega

section
variable (x : Bool) (e : WriterEntry)

theorem lt_of_needUncomp64 (h : needUncomp64 e = false) : e.uncompSize < 0xffffffff := by
  have hdec := (Bool.or_eq_false_iff.mp h).2
  exact UInt64.not_le.mp (of_decide_eq_false hdec)

theorem lt_of_needComp64 (h : needComp64 e = false) : e.compSize < 0xffffffff := by
  have hdec := (Bool.or_eq_false_iff.mp h).2
  exact UInt64.not_le.mp (of_decide_eq_false hdec)

theorem lt_of_needOff64 (h : needOff64 e = false) : e.lhoOffset < 0xffffffff := by
  have hdec := (Bool.or_eq_false_iff.mp h).2
  exact UInt64.not_le.mp (of_decide_eq_false hdec)

theorem pack_append (a b : List Word) : pack (a ++ b) = pack a ++ pack b := flatMap_append

theorem length_zip64Vals_le : (zip64Vals e).length ≤ 3 := by
  cases hu : needUncomp64 e <;> cases hc : needComp64 e <;> cases ho : needOff64 e <;> simp [zip64Vals, hu, hc, ho]

theorem length_pack_zip64Vals : (pack (zip64Vals e)).length = (zip64Vals e).length * 8 := by
  cases hu : needUncomp64 e <;> cases hc : needComp64 e <;> cases ho : needOff64 e <;>
    simp [zip64Vals, hu, hc, ho, Word.size]

theorem zip64Vals_pos (h : needZip64Extra e = true) : 0 < (zip64Vals e).length := by
  unfold needZip64Extra at h
  cases hu : needUncomp64 e <;> cases hc : needComp64 e <;> cases ho : needOff64 e <;> simp_all [zip64Vals]

theorem zip64Payload_extra (uncomp comp : UInt64) (h : needZip64Extra e = true) {fuel : Nat} (hfuel : 0 < fuel) :
    zip64Payload fuel (writeExtraFields x true uncomp comp false e) = some (pack (zip64Vals e)) := by
  obtain ⟨fuel, rfl⟩ : ∃ n, fuel = n + 1 := ⟨fuel - 1, by omega⟩
  have hle := length_zip64Vals_le e
  have hsz : (pack (zip64Vals e)).length = (UInt16.ofNat ((zip64Vals e).length * 8)).toNat := by
    rw [length_pack_zip64Vals, UInt16.toNat_ofNat']
    omega
  simp only [writeExtraFields, writeZip64Extra, if_true, if_false, Bool.false_eq_true, if_pos (zip64Vals_pos e h),
    pack_append]
  exact zip64Payload_written hsz _ fuel

theorem resolveZip64Sizes_written (hdr : CentralHeader) (h : hdr = centralHeader x e) :
    resolveZip64Sizes hdr (writeExtraFields x (needZip64Extra e) e.uncompSize e.compSize false e)
      = ⟨e.compSize, e.uncompSize, e.lhoOffset⟩ := by
  have hu : (hdr.uncompSize == 0xffffffff) = needUncomp64 e := by
    rw [h]
    exact sentinel_iff (lt_of_needUncomp64 e)
  have hc : (hdr.compSize == 0xffffffff) = needComp64 e := by
    rw [h]
    exact sentinel_iff (lt_of_needComp64 e)
  have ho : (hdr.lhoOffset == 0xffffffff) = needOff64 e := by
    rw [h]
    exact sentinel_iff (lt_of_needOff64 e)
  have hu' : (if needUncomp64 e then e.uncompSize else hdr.uncompSize.toUInt64) = e.uncompSize := by
    cases hneed : needUncomp64 e with
    | true => rfl
    | false => simp [h, centralHeader, hneed, toUInt32_toUInt64 (lt_of_needUncomp64 e hneed)]
  have hc' : (if needComp64 e then e.compSize else hdr.compSize.toUInt64) = e.compSize := by
    cases hneed : needComp64 e with
    | true => rfl
    | false => simp [h, centralHeader, hneed, toUInt32_toUInt64 (lt_of_needComp64 e hneed)]
  have ho' : (if needOff64 e then e.lhoOffset else hdr.lhoOffset.toUInt64) = e.lhoOffset := by
    cases hneed : needOff64 e with
    | true => rfl
    | false => simp [h, centralHeader, hneed, toUInt32_toUInt64 (lt_of_needOff64 e hneed)]
  simp only [resolveZip64Sizes, hu, hc, ho]
  cases hneed : needZip64Extra e with
  | true =>
    have hpos : 0 < (writeExtraFields x true e.uncompSize e.compSize false e).length := by
      simp only [writeExtraFields, writeZip64Extra, if_true, if_false, Bool.false_eq_true,
        if_pos (zip64Vals_pos e hneed), pack_append, length_append]
      simp [Word.size]
    have hany : (needUncomp64 e || needComp64 e || needOff64 e) = true := hneed
    rw [hany, if_pos rfl, zip64Payload_extra x e _ _ hneed hpos]
    simp only [zip64Vals, pack_append, append_assoc, takeField_written]
    have hlast := takeField_written (needOff64 e) hdr.lhoOffset.toUInt64 e.lhoOffset []
    rw [append_nil] at hlast
    rw [hlast, hu', hc', ho']
  | false =>
    have hnone : needUncomp64 e = false ∧ needComp64 e = false ∧ needOff64 e = false := by
      simpa [needZip64Extra, and_assoc] using hneed
    rw [hnone.1] at hu' ⊢
    rw [hnone.2.1] at hc' ⊢
    rw [hnone.2.2] at ho' ⊢
    simp only [Bool.or_false, Bool.false_eq_true, if_false] at hu' hc' ho' ⊢
    rw [hu', hc', ho']

end

/-! ## One record -/

theorem ok_bind {ε α β : Type} (a : α) (f : α → Except ε β) : (Except.ok a >>= f) = f a := rfl

theorem readExact_append {a : Bytes} {size : Nat} (h : a.length = size) (message : String) (rest : Bytes) :
    readExact size message (a ++ rest) = .ok (⟨a, h⟩, rest) := by
  unfold readExact
  rw [dif_neg (by rw [length_append]; omega)]
  simp only [take_left' h, drop_left' h]

structure Matches (e : WriterEntry) (c : CentralEntry) : Prop where
  name : c.name = e.name
  flags : c.hdr.flags = e.flags
  crc32 : c.hdr.crc32 = e.crc32
  method : c.hdr.method = e.method
  comment : c.comment = e.comment.getD []
  compSize : c.compSize = e.compSize
  uncompSize : c.uncompSize = e.uncompSize
  lhoOffset : c.lhoOffset = e.lhoOffset
  extraLen : c.extra.length = c.hdr.extraLen.toNat

def commentText (e : WriterEntry) : Bytes := e.comment.getD []

def centralRecord (x : Bool) (e : WriterEntry) : Bytes :=
  (centralHeader x e).bytes ++ e.name.val ++ writeExtraFields x (needZip64Extra e) e.uncompSize e.compSize false e
    ++ commentText e

def centralLength (x : Bool) (e : WriterEntry) : Nat :=
  46 + e.name.val.length + (getExtraLen x (needZip64Extra e) false (some e)).toNat + e.commentLen.toNat

theorem needSentinel_imp_extra (x : Bool) (e : WriterEntry)
    (h : (getExtraLen x (needZip64Extra e) false (some e) == 0) = true) : needZip64Extra e = false := by
  cases hneed : needZip64Extra e with
  | false => rfl
  | true =>
    have hlen := length_writeExtraFields x e.uncompSize e.compSize e
    rw [eq_of_beq h, hneed] at hlen
    have hnil : writeExtraFields x true e.uncompSize e.compSize false e = [] := length_eq_zero_iff.mp hlen
    have hpay := @zip64Payload_extra x e e.uncompSize e.compSize hneed 1 Nat.one_pos
    rw [hnil] at hpay
    simp [zip64Payload, readU16, readLe] at hpay

theorem readCentralEntry_record (x : Bool) (e : WriterEntry) (hname : e.name.val.length < 65536)
    (hcomment : (commentText e).length = e.commentLen.toNat) (rest : Bytes) :
    ∃ c, readCentralEntry (centralRecord x e ++ rest) = .ok (c, rest) ∧ Matches e c ∧ c.hdr = centralHeader x e
      ∧ c.extra = writeExtraFields x (needZip64Extra e) e.uncompSize e.compSize false e := by
  obtain ⟨hdr, hhdr⟩ : ∃ h, h = centralHeader x e := ⟨_, rfl⟩
  have hnameLen : e.name.val.length = hdr.nameLen.toNat := by
    rw [hhdr]
    simp only [centralHeader, UInt16.toNat_ofNat']
    omega
  have hextraLen := length_writeExtraFields x e.uncompSize e.compSize e
  have hextra : (writeExtraFields x (needZip64Extra e) e.uncompSize e.compSize false e).length = hdr.extraLen.toNat := by
    rw [hhdr]
    exact hextraLen
  have hcommentLen : (commentText e).length = hdr.commentLen.toNat := by
    rw [hhdr]
    exact hcomment
  have hsig : hdr.signature = sigCentral := by rw [hhdr]; rfl
  have hpresent : ((hdr.compSize == 0xffffffff || hdr.uncompSize == 0xffffffff || hdr.lhoOffset == 0xffffffff)
      && hdr.extraLen == 0) = false := by
    cases hzero : hdr.extraLen == 0 with
    | false => exact Bool.and_false _
    | true =>
      have hnone : needZip64Extra e = false := by
        apply needSentinel_imp_extra x
        rw [hhdr] at hzero
        exact hzero
      have hall : needUncomp64 e = false ∧ needComp64 e = false ∧ needOff64 e = false := by
        simpa [needZip64Extra, and_assoc] using hnone
      have hu := @sentinel_iff _ _ (lt_of_needUncomp64 e)
      have hc := @sentinel_iff _ _ (lt_of_needComp64 e)
      have ho := @sentinel_iff _ _ (lt_of_needOff64 e)
      rw [Bool.and_true, hhdr]
      simp only [centralHeader]
      rw [hu, hc, ho, hall.1, hall.2.1, hall.2.2]
      rfl
  refine ⟨⟨hdr, e.name, le_of_eq hnameLen, writeExtraFields x (needZip64Extra e) e.uncompSize e.compSize false e,
    commentText e, hcommentLen, e.compSize, e.uncompSize, e.lhoOffset⟩, ?_, ?_, hhdr, rfl⟩
  · unfold centralRecord readCentralEntry
    simp only [append_assoc, ← hhdr, CentralHeader.read_bytes]
    rw [if_neg (by rw [hsig]; exact fun h => h rfl)]
    simp only [readExact_append hnameLen, readExact_append hextra, readExact_append hcommentLen, hpresent,
      resolveZip64Sizes_written x e hdr hhdr, cText_of_zero_notMem e.name.property, ok_bind, Bool.false_eq_true, if_false]
  · subst hhdr
    exact ⟨rfl, rfl, rfl, rfl, rfl, rfl, rfl, rfl, hextra⟩

/-! ## All records -/

def directory (x : Bool) (entries : List WriterEntry) : Bytes := entries.flatMap (centralRecord x)

def directorySize (x : Bool) (entries : List WriterEntry) : UInt64 :=
  UInt64.ofNat (entries.map (centralLength x)).sum

def CommentPresent (e : WriterEntry) : Prop := (commentText e).length = e.commentLen.toNat

theorem zip64_or_extra (e : WriterEntry) : (e.zip64 || needZip64Extra e) = needZip64Extra e := by
  cases hz : e.zip64 with
  | false => rfl
  | true => simp [needZip64Extra, needUncomp64, hz]

variable {d d' : DirectoryState}

theorem writeCentralEntry_spec {e : WriterEntry} (h : writeCentralEntry x d e = .ok d') :
    CommentPresent e ∧ d'.out = d.out ++ centralRecord x e ∧ d'.cdSize = d.cdSize + UInt64.ofNat (centralLength x e)
      ∧ d'.needsZip64 = (d.needsZip64 || needZip64Extra e) := by
  simp only [writeCentralEntry, zip64_or_extra] at h
  by_cases hlen : 0 < e.commentLen
  · rw [if_pos hlen] at h
    cases htext : e.comment with
    | none =>
      rw [htext] at h
      cases h
    | some text =>
      rw [htext] at h
      cases h
      refine ⟨?_, ?_, rfl, rfl⟩
      · unfold CommentPresent commentText
        rw [htext]
        exact e.comment_length text htext
      · simp only [centralRecord, commentText, htext, Option.getD_some, append_assoc]
  · rw [if_neg hlen] at h
    cases h
    have hzero : e.commentLen.toNat = 0 := by
      have hnot : ¬0 < e.commentLen.toNat := fun hpos => hlen (UInt16.lt_iff_toNat_lt.mpr hpos)
      omega
    have htext : commentText e = [] := by
      unfold commentText
      cases htext : e.comment with
      | none => rfl
      | some text =>
        have hlength := e.comment_length text htext
        rw [hzero] at hlength
        exact length_eq_zero_iff.mp hlength
    refine ⟨?_, ?_, rfl, rfl⟩
    · unfold CommentPresent
      rw [htext, hzero]
      rfl
    · simp only [centralRecord, htext, append_assoc]

theorem writeCentralEntries_spec (h : writeCentralEntries x d entries = .ok d') :
    (∀ e ∈ entries, CommentPresent e) ∧ d'.out = d.out ++ directory x entries
      ∧ d'.cdSize = d.cdSize + directorySize x entries
      ∧ d'.needsZip64 = (d.needsZip64 || entries.any needZip64Extra) := by
  induction entries generalizing d with
  | nil =>
    cases h
    refine ⟨fun e he => (not_mem_nil he).elim, (append_nil _).symm, ?_, (Bool.or_false _).symm⟩
    simp [directorySize]
  | cons e entries ih =>
    unfold writeCentralEntries at h
    cases hentry : writeCentralEntry x d e with
    | error failure => simp [hentry] at h
    | ok next =>
      rw [hentry] at h
      obtain ⟨hpresent, hout, hsize, hneed⟩ := writeCentralEntry_spec hentry
      obtain ⟨hall, hout', hsize', hneed'⟩ := ih h
      refine ⟨?_, ?_, ?_, ?_⟩
      · intro a ha
        cases mem_cons.mp ha with
        | inl heq => exact heq ▸ hpresent
        | inr hrest => exact hall a hrest
      · rw [hout', hout, append_assoc]
        rfl
      · rw [hsize', hsize, UInt64.add_assoc]
        simp only [directorySize, map_cons, sum_cons, UInt64.ofNat_add]
      · rw [hneed', hneed, Bool.or_assoc]
        rfl

theorem length_centralRecord {e : WriterEntry} (h : CommentPresent e) :
    (centralRecord x e).length = centralLength x e := by
  unfold centralRecord centralLength
  rw [length_append, length_append, length_append, length_writeExtraFields, CentralHeader.length_bytes, h]

section
variable (h : ∀ e ∈ entries, CommentPresent e)
include h

theorem length_directory : (directory x entries).length = (entries.map (centralLength x)).sum := by
  unfold directory
  rw [length_flatMap]
  congr 1
  apply map_congr_left
  intro e he
  exact length_centralRecord (h e he)

theorem length_le_directory : entries.length ≤ (directory x entries).length := by
  rw [length_directory h]
  clear h
  induction entries with
  | nil => exact Nat.le_refl 0
  | cons e entries ih =>
    have hpos : 1 ≤ centralLength x e := by
      unfold centralLength
      omega
    rw [length_cons, map_cons, sum_cons]
    omega

theorem readCentralEntries_directory (hnames : ∀ e ∈ entries, e.name.val.length < 65536) (rest : Bytes) :
    ∃ got, readCentralEntries entries.length (directory x entries ++ rest) = .ok (got, rest)
      ∧ List.Forall₂ Matches entries got := by
  induction entries with
  | nil => exact ⟨[], rfl, List.Forall₂.nil⟩
  | cons e entries ih =>
    obtain ⟨c, hread, hmatches, _, _⟩ := readCentralEntry_record x e (hnames e mem_cons_self) (h e mem_cons_self)
      (directory x entries ++ rest)
    obtain ⟨got, hgot, hall⟩ := ih (fun a ha => h a (mem_cons_of_mem _ ha))
      (fun a ha => hnames a (mem_cons_of_mem _ ha))
    have hsplit : directory x (e :: entries) ++ rest = centralRecord x e ++ (directory x entries ++ rest) := by
      rw [← append_assoc]
      rfl
    refine ⟨c :: got, ?_, List.Forall₂.cons hmatches hall⟩
    rw [hsplit, length_cons, readCentralEntries, hread]
    simp only [hgot]

end

/-! ## The end records -/

def needsZip64 (x : Bool) (entries : List WriterEntry) (cdOffset : UInt64) : Bool :=
  decide (0xffff < entries.length) || decide (0xffffffff < cdOffset) || entries.any needZip64Extra
    || decide (0xffffffff < directorySize x entries)

def BoundaryValue (x : Bool) (entries : List WriterEntry) (cdOffset : UInt64) : Prop :=
  entries.length = 0xffff ∨ cdOffset = 0xffffffff ∨ directorySize x entries = 0xffffffff

def endRecord (x : Bool) (entries : List WriterEntry) (cdOffset : UInt64) (zipComment : Bytes) : EndCentral :=
  endCentral entries.length cdOffset (directorySize x entries) (UInt16.ofNat zipComment.length)

theorem writeEnd_spec {cdOffset : UInt64} {zipComment tail : Bytes}
    (h : writeEnd x entries cdOffset zipComment = .ok tail) :
    (∀ e ∈ entries, CommentPresent e) ∧ zipComment.length ≤ 0xffff
      ∧ tail = directory x entries
        ++ (if needsZip64 x entries cdOffset then writeEndCentral64 entries cdOffset (directorySize x entries) else [])
        ++ ((endRecord x entries cdOffset zipComment).bytes ++ zipComment) := by
  unfold writeEnd writeCentralDirectory at h
  cases hentries : writeCentralEntries x
      ⟨[], 0, decide (0xffff < entries.length) || decide (0xffffffff < cdOffset)⟩ entries with
  | error failure =>
    rw [hentries] at h
    cases h
  | ok d =>
    obtain ⟨hall, hout, hsize, hneed⟩ := writeCentralEntries_spec hentries
    rw [hentries] at h
    simp only [Except.map] at h
    rw [UInt64.zero_add] at hsize
    rw [nil_append] at hout
    by_cases hlong : 0xffff < zipComment.length
    · rw [if_pos hlong] at h
      cases h
    · rw [if_neg hlong] at h
      refine ⟨hall, by omega, ?_⟩
      by_cases hbig : 0xffffffff < d.cdSize
      · rw [if_pos hbig] at h
        have hzip : needsZip64 x entries cdOffset = true := by
          rw [hsize] at hbig
          simp [needsZip64, hbig]
        cases h
        simp only [hzip, hout, hsize, writeEndCentral, endRecord, if_true]
      · rw [if_neg hbig] at h
        have hzip : needsZip64 x entries cdOffset = d.needsZip64 := by
          rw [hsize] at hbig
          simp [needsZip64, hbig, hneed]
        cases h
        simp only [hzip, hout, hsize, writeEndCentral, endRecord]

section
variable {x : Bool} {entries : List WriterEntry} {cdOffset : UInt64} {zipComment : Bytes}

theorem capped16_eq (n : Nat) :
    ((if 0xffff < n then (0xffff : UInt16) else UInt16.ofNat n) == 0xffff) = decide (0xffff ≤ n) := by
  by_cases hbig : 0xffff < n
  · rw [if_pos hbig, decide_eq_true (by omega)]
    rfl
  · rw [if_neg hbig, Bool.eq_iff_iff, beq_iff_eq, decide_eq_true_iff, ← UInt16.toNat_inj, UInt16.toNat_ofNat']
    simp
    omega

theorem capped32_eq (v : UInt64) :
    ((if 0xffffffff < v then (0xffffffff : UInt32) else v.toUInt32) == 0xffffffff) = decide (0xffffffff ≤ v) := by
  by_cases hbig : 0xffffffff < v
  · rw [if_pos hbig, decide_eq_true (UInt64.le_of_lt hbig)]
    rfl
  · rw [if_neg hbig, Bool.eq_iff_iff, beq_iff_eq, decide_eq_true_iff, ← UInt32.toNat_inj, UInt64.le_iff_toNat_le]
    have hle := UInt64.le_iff_toNat_le.mp (UInt64.not_lt.mp hbig)
    simp at hle ⊢
    omega

theorem eq_or_lt_of_sentinel {v : UInt64} (h : decide (0xffffffff ≤ v) = true) : 0xffffffff < v ∨ v = 0xffffffff := by
  cases UInt64.lt_or_eq_of_le (of_decide_eq_true h) with
  | inl hlt => exact Or.inl hlt
  | inr heq => exact Or.inr heq.symm

theorem needZip64_endRecord (h : needZip64 (endRecord x entries cdOffset zipComment) = true) :
    needsZip64 x entries cdOffset = true ∨ BoundaryValue x entries cdOffset := by
  simp only [needZip64, endRecord, endCentral, capped16_eq, capped32_eq, Bool.or_eq_true] at h
  simp only [needsZip64, BoundaryValue, Bool.or_eq_true]
  cases h with
  | inl h =>
    cases h with
    | inl hcount =>
      cases Nat.lt_or_eq_of_le (of_decide_eq_true hcount) with
      | inl hlt => exact Or.inl (Or.inl (Or.inl (Or.inl (decide_eq_true hlt))))
      | inr heq => exact Or.inr (Or.inl heq.symm)
    | inr hoff =>
      cases eq_or_lt_of_sentinel hoff with
      | inl hlt => exact Or.inl (Or.inl (Or.inl (Or.inr (decide_eq_true hlt))))
      | inr heq => exact Or.inr (Or.inr (Or.inl heq))
  | inr hsize =>
    cases eq_or_lt_of_sentinel hsize with
    | inl hlt => exact Or.inl (Or.inr (decide_eq_true hlt))
    | inr heq => exact Or.inr (Or.inr (Or.inr heq))

theorem needZip64_of_boundary (h : BoundaryValue x entries cdOffset) :
    needZip64 (endRecord x entries cdOffset zipComment) = true := by
  simp only [needZip64, endRecord, endCentral, capped16_eq, capped32_eq, Bool.or_eq_true]
  cases h with
  | inl hcount => exact Or.inl (Or.inl (by simp [hcount]))
  | inr h =>
    cases h with
    | inl hoff => exact Or.inl (Or.inr (by simp [hoff]))
    | inr hsize => exact Or.inr (by simp [hsize])

theorem endRecord_exact (h : needZip64 (endRecord x entries cdOffset zipComment) = false) :
    (endRecord x entries cdOffset zipComment).cdOffset.toUInt64 = cdOffset
      ∧ (endRecord x entries cdOffset zipComment).entriesTotal.toUInt64 = UInt64.ofNat entries.length
      ∧ entries.length < 0xffff := by
  simp only [needZip64, endRecord, endCentral, capped16_eq, capped32_eq, Bool.or_eq_false_iff, decide_eq_false_iff_not] at h
  obtain ⟨⟨hcount, hoff⟩, _⟩ := h
  have hlt : cdOffset < 0xffffffff := UInt64.not_le.mp hoff
  refine ⟨?_, ?_, by omega⟩
  · simp only [endRecord, endCentral]
    rw [if_neg (fun hbig => hoff (UInt64.le_of_lt hbig)), toUInt32_toUInt64 hlt]
  · simp only [endRecord, endCentral]
    rw [if_neg (by omega)]
    apply UInt64.toNat_inj.mp
    simp
    omega

end

/-! ## Reading them -/

section
variable {f : File} {before comment : Bytes} {endrec : EndCentral} (zip : ArchiveComment) (loadComment : Bool)

theorem loadArchiveComment_ok (hcomment : endrec.commentLen.toNat = comment.length) :
    ∃ zip', loadArchiveComment zip endrec comment loadComment = .ok zip' := by
  unfold loadArchiveComment
  by_cases hload : (!loadComment) = true
  · exact ⟨_, if_pos hload⟩
  · rw [if_neg hload]
    by_cases hspec : zip.specified = true
    · exact ⟨_, if_pos hspec⟩
    · rw [if_neg hspec]
      by_cases hzero : endrec.commentLen.toNat = 0
      · exact ⟨_, if_pos hzero⟩
      · rw [if_neg hzero, if_neg (by omega)]
        exact ⟨_, rfl⟩

variable (hsig : endrec.signature = sigEnd) (hcomment : endrec.commentLen.toNat = comment.length)
variable (hf : f.bytes = before ++ endrec.bytes ++ comment) (hlone : LoneSignature (endrec.bytes ++ comment))
include hsig hcomment hf hlone

theorem readCdInfo_lone : ∃ zip', readCdInfo zip f loadComment =
    if needZip64 endrec then (readEnd64 f before.length).map fun info => (info, zip')
    else .ok (⟨endrec.cdOffset.toUInt64, endrec.entriesTotal.toUInt64⟩, zip') := by
  obtain ⟨zip', hzip⟩ := loadArchiveComment_ok zip loadComment hcomment
  obtain ⟨hhit, hnear⟩ := endRecord_near hsig hcomment hf
  have hfind : findEocd f = some before.length := by
    apply (findEocd_eq_some_iff hhit hnear).mpr
    rw [hf, append_assoc]
    exact (loneSignature_iff before _).mp hlone
  have hread : EndCentral.read (f.bytes.drop before.length) = some (endrec, comment) := by
    rw [hf, append_assoc, drop_left, EndCentral.read_bytes]
  refine ⟨zip', ?_⟩
  unfold readCdInfo
  simp only [hfind, hread, hzip]
  rw [if_neg (fun hne => hne hsig)]

end

theorem length_writeEndCentral64 (entries : List WriterEntry) (cdOffset cdSize : UInt64) :
    (writeEndCentral64 entries cdOffset cdSize).length = 76 := by
  rw [writeEndCentral64, length_append, EndCentral64.length_bytes, End64Locator.length_bytes]

theorem readEnd64_written {f : File} {front rest : Bytes} {cdOffset cdSize : UInt64}
    (hf : f.bytes = front ++ writeEndCentral64 entries cdOffset cdSize ++ rest)
    (hfront : (cdOffset + cdSize).toNat = front.length) :
    readEnd64 f (front.length + 76) = .ok ⟨cdOffset, UInt64.ofNat entries.length⟩ := by
  have hlt := f.length_lt
  rw [hf, length_append, length_append] at hlt
  have hlocator : f.bytes.drop (front.length + 76 - 20) = (end64Locator cdOffset cdSize).bytes ++ rest := by
    have hsplit : f.bytes
        = (front ++ (end64Central entries cdOffset cdSize).bytes) ++ ((end64Locator cdOffset cdSize).bytes ++ rest) := by
      rw [hf]
      simp only [writeEndCentral64, append_assoc]
    rw [hsplit]
    apply drop_left'
    rw [length_append, EndCentral64.length_bytes]
    omega
  have hend : f.bytes.drop front.length
      = (end64Central entries cdOffset cdSize).bytes ++ ((end64Locator cdOffset cdSize).bytes ++ rest) := by
    rw [hf, append_assoc, drop_left]
    simp only [writeEndCentral64, append_assoc]
  have hplace : (end64Locator cdOffset cdSize).eocd64Offset.toNat = front.length := hfront
  unfold readEnd64
  rw [if_neg (by omega), hlocator, End64Locator.read_bytes]
  dsimp only
  rw [if_neg (fun hne => hne rfl), hplace, if_neg (by omega), hend, EndCentral64.read_bytes]
  dsimp only
  rw [if_neg (fun hne => hne rfl)]
  rfl

/-! ## The round trip -/

structure ReadsBack (zip : ArchiveComment) (loadComment : Bool) (f : File) (entries : List WriterEntry)
    (cdOffset : UInt64) : Prop where
  place : ∃ info zip', readCdInfo zip f loadComment = .ok (info, zip') ∧ info.cdOffset = cdOffset
    ∧ info.entriesTotal.toNat = entries.length
  records : ∃ got rest, readCentralEntries entries.length (f.bytes.drop cdOffset.toNat) = .ok (got, rest)
    ∧ List.Forall₂ Matches entries got

/-- Something in front of the end record that carries the signature of a Zip64 locator -/
def LocatorInFront (f : File) (eocdPos : Nat) : Prop :=
  ∃ locator rest, End64Locator.read (f.bytes.drop (eocdPos - 20)) = some (locator, rest)
    ∧ locator.signature = sigEnd64Loc

section
variable {x : Bool} {entries : List WriterEntry} {cdOffset : UInt64} {zipComment before tail : Bytes} {f : File}

theorem needsZip64_of_readsBack (hwrite : writeEnd x entries cdOffset zipComment = .ok tail)
    (hf : f.bytes = before ++ tail) (zip : ArchiveComment) (loadComment : Bool)
    (hlone : LoneSignature ((endRecord x entries cdOffset zipComment).bytes ++ zipComment))
    (hlocator : ¬LocatorInFront f (before ++ directory x entries).length)
    (hreads : ReadsBack zip loadComment f entries cdOffset) (hboundary : BoundaryValue x entries cdOffset) :
    needsZip64 x entries cdOffset = true := by
  obtain ⟨_, hlong, htail⟩ := writeEnd_spec hwrite
  have hcommentLen : (endRecord x entries cdOffset zipComment).commentLen.toNat = zipComment.length := by
    simp only [endRecord, endCentral, UInt16.toNat_ofNat']
    omega
  by_contra hzip
  have hend : f.bytes
      = (before ++ directory x entries) ++ (endRecord x entries cdOffset zipComment).bytes ++ zipComment := by
    rw [hf, htail, if_neg hzip, append_nil]
    simp only [append_assoc]
  obtain ⟨zip', hinfo⟩ := readCdInfo_lone zip loadComment rfl hcommentLen hend hlone
  rw [needZip64_of_boundary hboundary, if_pos rfl] at hinfo
  obtain ⟨info, zip'', hread, _⟩ := hreads.place
  rw [hinfo] at hread
  have hfail : ∃ failure, readEnd64 f (before ++ directory x entries).length = .error failure := by
    unfold readEnd64
    by_cases hshort : (before ++ directory x entries).length < 20
    · exact ⟨_, if_pos hshort⟩
    · rw [if_neg hshort]
      cases hloc : End64Locator.read (f.bytes.drop ((before ++ directory x entries).length - 20)) with
      | none => exact ⟨_, rfl⟩
      | some r =>
        obtain ⟨locator, rest⟩ := r
        have hsig : locator.signature ≠ sigEnd64Loc := fun heq => hlocator ⟨locator, rest, hloc, heq⟩
        exact ⟨_, if_pos hsig⟩
  obtain ⟨failure, hfail⟩ := hfail
  rw [hfail] at hread
  cases hread

variable (hnames : ∀ e ∈ entries, e.name.val.length < 65536) (hwrite : writeEnd x entries cdOffset zipComment = .ok tail)
variable (hbefore : before.length = cdOffset.toNat) (hf : f.bytes = before ++ tail)
variable (zip : ArchiveComment) (loadComment : Bool)
include hnames hwrite hbefore hf

/-- **Main result.** The directory reads back when the end record's signature stands alone and Zip64 records go with
every boundary value. Without them a boundary value is read as a sentinel, and only other data that looks like a locator
could hide that. -/
theorem directory_readsBack : (LoneSignature ((endRecord x entries cdOffset zipComment).bytes ++ zipComment) →
      (BoundaryValue x entries cdOffset → needsZip64 x entries cdOffset = true) →
      ReadsBack zip loadComment f entries cdOffset)
    ∧ (LoneSignature ((endRecord x entries cdOffset zipComment).bytes ++ zipComment) →
      ¬LocatorInFront f (before ++ directory x entries).length → ReadsBack zip loadComment f entries cdOffset →
      BoundaryValue x entries cdOffset → needsZip64 x entries cdOffset = true) := by
  obtain ⟨hall, hlong, htail⟩ := writeEnd_spec hwrite
  obtain ⟨got, hgot, hmatches⟩ := readCentralEntries_directory hall hnames
    ((if needsZip64 x entries cdOffset then writeEndCentral64 entries cdOffset (directorySize x entries) else [])
      ++ ((endRecord x entries cdOffset zipComment).bytes ++ zipComment))
  have hrecords : ∃ got rest, readCentralEntries entries.length (f.bytes.drop cdOffset.toNat) = .ok (got, rest)
      ∧ List.Forall₂ Matches entries got := by
    rw [hf, ← hbefore, drop_left, htail, append_assoc]
    exact ⟨got, _, hgot, hmatches⟩
  have hlt := f.length_lt
  have hcount := @length_le_directory x entries hall
  have hcommentLen : (endRecord x entries cdOffset zipComment).commentLen.toNat = zipComment.length := by
    simp only [endRecord, endCentral, UInt16.toNat_ofNat']
    omega
  have hplace : (cdOffset + directorySize x entries).toNat = (before ++ directory x entries).length := by
    rw [hf, htail] at hlt
    simp only [length_append] at hlt
    unfold directorySize
    rw [← length_directory hall, UInt64.toNat_add, UInt64.toNat_ofNat', length_append, hbefore]
    omega
  obtain ⟨front, hfront⟩ : ∃ front, front = before ++ directory x entries
      ++ (if needsZip64 x entries cdOffset then writeEndCentral64 entries cdOffset (directorySize x entries) else []) :=
    ⟨_, rfl⟩
  have hend : f.bytes = front ++ (endRecord x entries cdOffset zipComment).bytes ++ zipComment := by
    rw [hf, htail, hfront]
    simp only [append_assoc]
  refine ⟨?_, ?_⟩
  · intro hlone hcond
    obtain ⟨zip', hinfo⟩ := readCdInfo_lone zip loadComment rfl hcommentLen hend hlone
    refine ⟨?_, hrecords⟩
    cases hneed : needZip64 (endRecord x entries cdOffset zipComment) with
    | false =>
      obtain ⟨hoff, htotal, hsmall⟩ := endRecord_exact hneed
      rw [hneed] at hinfo
      refine ⟨_, zip', hinfo, hoff, ?_⟩
      dsimp only
      rw [htotal, UInt64.toNat_ofNat']
      omega
    | true =>
      have hzip : needsZip64 x entries cdOffset = true := (needZip64_endRecord hneed).elim id hcond
      rw [hzip, if_pos rfl] at hfront
      have hfile : f.bytes = (before ++ directory x entries)
          ++ writeEndCentral64 entries cdOffset (directorySize x entries)
          ++ ((endRecord x entries cdOffset zipComment).bytes ++ zipComment) := by
        rw [hend, hfront, append_assoc]
      have hread := readEnd64_written hfile hplace
      have hfrontLength : front.length = (before ++ directory x entries).length + 76 := by
        rw [hfront, length_append, length_writeEndCentral64]
      rw [hneed, if_pos rfl, hfrontLength, hread] at hinfo
      refine ⟨_, zip', hinfo, rfl, ?_⟩
      have hdir : (directory x entries).length ≤ f.bytes.length := by
        rw [hfile]
        simp only [length_append]
        omega
      dsimp only
      rw [UInt64.toNat_ofNat']
      omega
  · intro hlone hlocator hreads hboundary
    exact needsZip64_of_readsBack hwrite hf zip loadComment hlone hlocator hreads hboundary

end

/-! ## A directory at the largest offset of 32 bits -/

theorem emptyMember_noNul : 0 ∉ ascii "a" := by decide

def emptyMember : WriterEntry where
  name := ⟨ascii "a", emptyMember_noNul⟩
  crc32 := 0
  compSize := 0
  uncompSize := 0
  lhoOffset := 0
  method := 0
  flags := 0
  modTime := 0
  modDate := 0
  extAttr := 0
  versionMade := 20
  intAttr := 0
  zip64 := false
  diskStart := 0
  comment := none
  commentLen := 0
  comment_length := by intro text h; cases h
  atime := 0
  mtime := 0
  ctime := 0
  uid := 0
  gid := 0

def memberTail (cdOffset : UInt64) : Bytes :=
  directory true [emptyMember] ++ [] ++ ((endRecord true [emptyMember] cdOffset []).bytes ++ [])

def memberFile (cdOffset : UInt64) (h : cdOffset ≤ 0xffffffff) : File where
  bytes := replicate cdOffset.toNat 0 ++ memberTail cdOffset
  length_lt := by
    have hle := UInt64.le_iff_toNat_le.mp h
    have htail : (memberTail cdOffset).length = 47 + 22 := by
      rw [memberTail, append_nil, append_nil, length_append, EndCentral.length_bytes]
      rfl
    rw [length_append, length_replicate, htail]
    simp at hle
    omega

theorem directory_readsBack_member : ReadsBack ⟨none, false⟩ true (memberFile 31 (by decide)) [emptyMember] 31 :=
  (@directory_readsBack true [emptyMember] 31 [] _ (memberTail 31) (memberFile 31 (by decide)) (by decide) rfl
    (length_replicate ..) rfl ⟨none, false⟩ true).1 (by decide) (by unfold BoundaryValue; decide)

theorem directory_stops_at_boundary :
    ¬∀ (x : Bool) (entries : List WriterEntry) (cdOffset : UInt64) (zipComment before tail : Bytes) (f : File)
      (zip : ArchiveComment) (loadComment : Bool), (∀ e ∈ entries, e.name.val.length < 65536) →
      writeEnd x entries cdOffset zipComment = .ok tail → before.length = cdOffset.toNat → f.bytes = before ++ tail →
      (∀ i, hasSigEnd zipComment i = false) → ReadsBack zip loadComment f entries cdOffset := by
  intro hall
  have hreads := hall true [emptyMember] 0xffffffff [] (replicate 0xffffffff 0) (memberTail 0xffffffff)
    (memberFile 0xffffffff (by decide)) ⟨none, false⟩ false (by decide) rfl length_replicate rfl
    (fun i => by simp [hasSigEnd, readU32, readLe])
  have hlocator : ¬LocatorInFront (memberFile 0xffffffff (by decide))
      (replicate 0xffffffff 0 ++ directory true [emptyMember]).length := by
    intro h
    obtain ⟨locator, rest, hread, hsig⟩ := h
    have hdrop : (memberFile 0xffffffff (by decide)).bytes.drop
        ((replicate 0xffffffff 0 ++ directory true [emptyMember]).length - 20) = (memberTail 0xffffffff).drop 27 := by
      have hplace : (replicate 0xffffffff 0 ++ directory true [emptyMember]).length - 20
          = (replicate 0xffffffff (0 : UInt8)).length + 27 := by
        rw [length_append, length_replicate]
        rfl
      rw [hplace]
      exact drop_length_add_append 27
    rw [hdrop] at hread
    have hnone : (End64Locator.read ((memberTail 0xffffffff).drop 27)).map (fun r => r.1.signature) = some 256 := by
      decide
    rw [hread] at hnone
    have hvalue : locator.signature = 256 := Option.some.inj hnone
    rw [hvalue] at hsig
    cases hsig
  have hzip := @needsZip64_of_readsBack true [emptyMember] 0xffffffff [] (replicate 0xffffffff 0)
    (memberTail 0xffffffff) (memberFile 0xffffffff (by decide)) rfl rfl ⟨none, false⟩ false (by decide) hlocator
    hreads (Or.inr (Or.inl rfl))
  cases hzip

end Bx.Zip
