import Bx.Tar.RecordWrites
import Bx.Tar.Write

/-!
# Records in force: soundness

The records of the members read so far, applied in order, give the two sets
the reader keeps; so what an entry is prepared from is what its scope says.
-/

namespace Bx.Tar
open Kit

/-! ## The sets of a scope -/

/-- The two sets and the long name that the records of `scope` leave -/
structure InForce (o : ReaderOptions) (scope : Scope) (pax shared : PaxInfo) (long : LongTexts) : Prop where
  own : scope.own.foldlM (applyPaxRecord o.skipOwnerGroupNames false) {} = some pax
  shared : scope.shared.foldlM (applyPaxRecord o.skipOwnerGroupNames true) {} = some shared
  longName : long.name = scope.longName

section
variable {o : ReaderOptions} {scope : Scope} {pax shared : PaxInfo} {long : LongTexts}

theorem or_none_start {β : Type} {value : Option β} {last : Option β} (h : value = (last <|> none)) : value = last := by
  rw [h]
  cases last <;> rfl

theorem InForce.path (h : InForce o scope pax shared long) : (paxEffectiveInfo shared pax).path = scope.path := by
  have hown := foldlM_last PaxInfo.path sparseNameWrite (fun _ _ _ => apply_path) h.own
  have hshared := foldlM_last (fun pax => pax.textOf .path) (textWrite .path)
    (fun _ _ _ => apply_textOf .path (.inl rfl) (.inr ⟨by decide, by decide⟩)) h.shared
  unfold Scope.path lastWrite
  rw [← or_none_start hown, ← or_none_start hshared]
  rfl

variable {records : List Bytes} {isGlobal : Bool} {final : PaxInfo}

theorem fold_textOf (text : PaxText)
    (hpath : isGlobal = true ∨ text ≠ .path) (hskip : o.skipOwnerGroupNames = false ∨ (text ≠ .uname ∧ text ≠ .gname))
    (h : records.foldlM (applyPaxRecord o.skipOwnerGroupNames isGlobal) {} = some final) :
    final.textOf text = lastWrite (textWrite text) records := by
  have hlast := foldlM_last (fun pax => pax.textOf text) (textWrite text) (fun _ _ _ => apply_textOf text hpath hskip) h
  cases text <;> exact or_none_start hlast

theorem InForce.text (h : InForce o scope pax shared long) (text : PaxText) (hpath : text ≠ .path)
    (hskip : o.skipOwnerGroupNames = false ∨ (text ≠ .uname ∧ text ≠ .gname)) :
    (paxEffectiveInfo shared pax).textOf text = scope.text text := by
  unfold Scope.text
  rw [← fold_textOf text (.inr hpath) hskip h.own, ← fold_textOf text (.inr hpath) hskip h.shared]
  cases text <;> rfl

theorem fold_readings (h : records.foldlM (applyPaxRecord o.skipOwnerGroupNames isGlobal) {} = some final) :
    final.numbers.size.reading = lastWrite (numberWrite .size sizeParseUint) records ∧
      final.numbers.uid.reading = lastWrite (numberWrite .uid sizeParseUint) records ∧
      final.numbers.gid.reading = lastWrite (numberWrite .gid sizeParseUint) records ∧
      final.numbers.mtime.reading = lastWrite (numberWrite .mtime parsePaxTime) records := by
  have hsize := foldlM_last (fun pax : PaxInfo => pax.numbers.size.reading) (numberWrite .size sizeParseUint)
    (fun _ _ _ happly => (apply_readings happly).1) h
  have huid := foldlM_last (fun pax : PaxInfo => pax.numbers.uid.reading) (numberWrite .uid sizeParseUint)
    (fun _ _ _ happly => (apply_readings happly).2.1) h
  have hgid := foldlM_last (fun pax : PaxInfo => pax.numbers.gid.reading) (numberWrite .gid sizeParseUint)
    (fun _ _ _ happly => (apply_readings happly).2.2.1) h
  have hmtime := foldlM_last (fun pax : PaxInfo => pax.numbers.mtime.reading) (numberWrite .mtime parsePaxTime)
    (fun _ _ _ happly => (apply_readings happly).2.2.2) h
  exact ⟨or_none_start hsize, or_none_start huid, or_none_start hgid, or_none_start hmtime⟩

section
variable (h : InForce o scope pax shared long)
include h

theorem InForce.readings : (paxEffectiveInfo shared pax).numbers.size.reading = scope.size ∧
      (paxEffectiveInfo shared pax).numbers.uid.reading = scope.uid ∧
      (paxEffectiveInfo shared pax).numbers.gid.reading = scope.gid ∧
      (paxEffectiveInfo shared pax).numbers.mtime.reading = scope.mtime := by
  obtain ⟨hsize, huid, hgid, hmtime⟩ := fold_readings h.own
  obtain ⟨hsize', huid', hgid', hmtime'⟩ := fold_readings h.shared
  unfold Scope.size Scope.uid Scope.gid Scope.mtime Scope.number
  rw [← hsize, ← huid, ← hgid, ← hmtime, ← hsize', ← huid', ← hgid', ← hmtime']
  exact ⟨reading_effective _ _, reading_effective _ _, reading_effective _ _, reading_effective _ _⟩

theorem InForce.realsize : pax.sparseRealsize = (lastWrite realsizeWrite scope.own).getD 0 := by
  have hlast := foldlM_last (fun pax : PaxInfo => some pax.sparseRealsize) realsizeWrite
    (fun _ _ _ => apply_realsize) h.own
  unfold lastWrite
  cases hwrite : (scope.own.filterMap realsizeWrite).getLast? with
  | none =>
    rw [hwrite] at hlast
    exact Option.some.inj hlast
  | some n =>
    rw [hwrite] at hlast
    exact Option.some.inj hlast

theorem InForce.untouched : paxInfoClear pax = {} := by
  have hactive : ∀ (records : List Bytes) (start final : PaxInfo), (start = {} ∨ start.active = true) →
      records.foldlM (applyPaxRecord o.skipOwnerGroupNames false) start = some final →
      final = {} ∨ final.active = true := by
    intro records
    induction records with
    | nil =>
      intro start final hstart hfold
      cases hfold
      exact hstart
    | cons record records ih =>
      intro start final hstart hfold
      rw [List.foldlM_cons] at hfold
      obtain ⟨next, hnext, hrest⟩ := Option.bind_eq_some_iff.mp hfold
      apply ih next final _ hrest
      cases apply_active hnext with
      | inl hsame =>
        rw [hsame]
        exact hstart
      | inr hset => exact .inr hset
  unfold paxInfoClear
  cases hactive scope.own {} pax (.inl rfl) h.own with
  | inl hempty =>
    rw [hempty]
    rfl
  | inr hset => rw [if_pos hset]

end

/-! ## The entry -/

variable {r : Entry × Nat × Input} {entry : Entry} {input : Input}

theorem prepareMember_keeps {υ : Type} {ops : VisitorOps υ} {size : Nat}
    (hplain : entry.sparse = false) (h : prepareMember ops pax size entry input = some r) :
    ∃ sparse extents data dataLen, r.1 = { entry with
      sparse := sparse, size := if sparse then pax.sparseRealsize else entry.size, extents := extents, data := data
      dataLen := dataLen } := by
  unfold prepareMember at h
  by_cases hsparse : entry.kind = .reg ∧ sparseMember pax = true
  · rw [if_pos hsparse] at h
    cases hprepare : prepareSparsePayload input size (entry.asSparse pax.sparseRealsize) with
    | none => simp [hprepare] at h
    | some prepared =>
      obtain ⟨sparseEntry, archivePadding, input'⟩ := prepared
      have hmap : ∃ extents dataLen, sparseEntry = { entry.asSparse pax.sparseRealsize with
          extents := extents, dataLen := dataLen } := by
        unfold prepareSparsePayload at hprepare
        split at hprepare
        · cases hprepare
        · split at hprepare
          · cases hprepare
          · split at hprepare
            · cases hprepare
            · split at hprepare
              · cases hprepare
              · split at hprepare
                · cases hprepare
                · split at hprepare
                  · cases hprepare
                  · obtain ⟨_, _, hsome⟩ := Option.map_eq_some_iff.mp hprepare
                    cases hsome
                    exact ⟨_, _, rfl⟩
      obtain ⟨extents, dataLen, rfl⟩ := hmap
      rw [hprepare] at h
      dsimp only at h
      split at h
      · cases h
        exact ⟨true, extents, entry.data, dataLen, rfl⟩
      · obtain ⟨read, hread, hsome⟩ := Option.map_eq_some_iff.mp h
        unfold readSparsePayloadBuffered at hread
        split at hread
        · cases hread
        · obtain ⟨_, _, rfl⟩ := Option.map_eq_some_iff.mp hread
          cases hsome
          exact ⟨true, extents, _, dataLen, rfl⟩
  · rw [if_neg hsparse] at h
    cases h
    refine ⟨false, entry.extents, entry.data, entry.dataLen, ?_⟩
    rw [if_neg Bool.false_ne_true, ← hplain]

section
variable (h : InForce o scope pax shared long)
include h

theorem InForce.size {m : Member} (hplain : m.isExtended = false)
    (hsize : headerPayloadSize m.header (paxEffectiveInfo shared pax).numbers = some m.size) :
    scope.size ≠ some none ∧ scope.size.getD (parseOctalField (field m.header 124 12)) = some m.size := by
  have hextended : isExtendedType (typeflag m.header) = false := hplain
  rw [← h.readings.1]
  generalize (paxEffectiveInfo shared pax).numbers = numbers at hsize
  obtain ⟨⟨defined, present, value⟩, uid, gid, mtime⟩ := numbers
  simp only [headerPayloadSize, hextended, Bool.not_false, Bool.true_and, PaxNumber.deleted] at hsize
  cases present with
  | true =>
    simp only [Bool.not_true, Bool.and_false, Bool.false_eq_true, if_false, if_true] at hsize
    split at hsize
    · cases hsize
    · cases hsize
      exact ⟨by simp [PaxNumber.reading], rfl⟩
  | false =>
    cases defined with
    | true => cases hsize
    | false =>
      simp only [Bool.not_false, Bool.and_true, Bool.false_eq_true, if_false] at hsize
      cases hoctal : parseOctalField (field m.header 124 12) with
      | none => simp [hoctal] at hsize
      | some size =>
        rw [hoctal] at hsize
        dsimp only at hsize
        split at hsize
        · cases hsize
        · cases hsize
          exact ⟨by simp [PaxNumber.reading], rfl⟩

theorem owner_scoped (text : PaxText) (hpath : text ≠ .path) (octets : Bytes) :
    (if o.skipOwnerGroupNames then none else ownerName ((paxEffectiveInfo shared pax).textOf text) octets) =
      if o.skipOwnerGroupNames then none else ownerName (scope.text text) octets := by
  by_cases hskip : o.skipOwnerGroupNames = true
  · rw [if_pos hskip, if_pos hskip]
  · rw [if_neg hskip, if_neg hskip, h.text text hpath (.inl (by simpa using hskip))]

theorem linkpath_scoped : (paxEffectiveInfo shared pax).linkpath = scope.text .linkpath :=
  h.text .linkpath (by decide) (.inr ⟨by decide, by decide⟩)

end

theorem InForce.scoped {υ : Type} {ops : VisitorOps υ} (h : InForce o scope pax shared long) {m : Member}
    (hplain : m.isExtended = false)
    (hsize : headerPayloadSize m.header (paxEffectiveInfo shared pax).numbers = some m.size)
    {long' : LongTexts} {index : Nat}
    (hprepare : prepareEntryFromHeader o m.header m.size m.type (paxEffectiveInfo shared pax)
      (paxEffectiveInfo shared pax).numbers shared.metadata long = some (entry, long'))
    (hmember : prepareMember ops pax m.size (entry.atBlock index) input = some r) :
    Scoped o scope m r.1 ∧ (long.link = scope.longLink → r.1.linkname = scopedTarget scope m) ∧ long'.name = none ∧
      long'.link = if (scope.text .linkpath).isSome || isLinkType m.type then none else long.link := by
  have hlink := linkpath_scoped h
  obtain ⟨_, huid, hgid, hmtime⟩ := h.readings
  unfold prepareEntryFromHeader at hprepare
  by_cases htarget : (isLinkType m.type && (paxEffectiveInfo shared pax).linkpath == some []) = true
  · rw [if_pos htarget] at hprepare
    cases hprepare
  rw [if_neg htarget] at hprepare
  cases hkind : entryKind m.header m.size m.type with
  | none => simp [hkind] at hprepare
  | some kind =>
    rw [hkind] at hprepare
    cases hprepare
    obtain ⟨sparse, extents, data, dataLen, hshown⟩ := prepareMember_keeps rfl hmember
    rw [hlink] at htarget
    rw [hshown]
    refine ⟨?_, ?_, rfl, by rw [← hlink]⟩
    · exact
        { name := by
            rw [← h.path, ← h.longName]
            rfl
          uname := owner_scoped h .uname (by decide) _
          gname := owner_scoped h .gname (by decide) _
          uid := by
            rw [← huid, ← headerNumber_reading]
            rfl
          gid := by
            rw [← hgid, ← headerNumber_reading]
            rfl
          mtime := by
            rw [← hmtime, ← headerNumber_reading]
            rfl
          omits := by
            rw [← huid, ← hgid, ← hmtime, ← deleted_reading, ← deleted_reading, ← deleted_reading]
            exact ⟨rfl, rfl, rfl⟩
          stored := h.size hplain hsize
          size := by
            rw [← h.realsize]
            rfl
          no_target := by
            intro htype hempty
            rw [htype, hempty] at htarget
            exact htarget rfl }
    · intro hlong
      unfold scopedTarget
      rw [← hlink, ← hlong]
      rfl

end

/-! ## One member more -/

section
variable {history : List Member} {m : Member}

theorem sinceEntry_extended (h : m.isExtended = true) : sinceEntry (history ++ [m]) = sinceEntry history ++ [m] :=
  List.rtakeWhile_concat_pos _ _ _ h

theorem sinceEntry_entry (h : m.isExtended = false) : sinceEntry (history ++ [m]) = [] :=
  List.rtakeWhile_concat_neg _ _ _ (by simp [h])

theorem recordsOf_concat (type : UInt8) (members : List Member) :
    recordsOf type (members ++ [m]) = recordsOf type members ++ if m.type = type then m.records else [] := by
  unfold recordsOf
  by_cases h : m.type = type
  · simp [h]
  · simp [h]

theorem longTextOf_concat (type : UInt8) (members : List Member) :
    longTextOf type (members ++ [m]) = if m.type = type then some (longText m.payload) else longTextOf type members := by
  unfold longTextOf
  by_cases h : m.type = type
  · simp [h]
  · simp [h]

theorem scopeOf_entry (h : m.isExtended = false) :
    scopeOf (history ++ [m]) = { shared := (scopeOf history).shared } := by
  have hglobal : m.type ≠ 103 := by
    intro htype
    have hextended : isExtendedType m.type = false := h
    rw [htype] at hextended
    cases hextended
  unfold scopeOf
  rw [sinceEntry_entry h, recordsOf_concat, if_neg hglobal, List.append_nil]
  rfl

theorem scopeOf_extended (h : m.isExtended = true) : scopeOf (history ++ [m]) =
      { own := (scopeOf history).own ++ if m.type = 120 then m.records else []
        shared := (scopeOf history).shared ++ if m.type = 103 then m.records else []
        longName := if m.type = 76 then some (longText m.payload) else (scopeOf history).longName
        longLink := if m.type = 75 then some (longText m.payload) else (scopeOf history).longLink } := by
  unfold scopeOf
  rw [sinceEntry_extended h, recordsOf_concat, recordsOf_concat, longTextOf_concat, longTextOf_concat]

theorem LinksTaken.init (h : LinksTaken (history ++ [m])) : LinksTaken history := by
  intro before m' after hsplit
  apply h before m' (after ++ [m])
  rw [hsplit]
  simp

theorem LinksTaken.last (h : LinksTaken (history ++ [m])) (hplain : m.isExtended = false)
    (hlink : (scopeOf history).longLink.isSome) :
    isLinkType m.type = true ∨ ((scopeOf history).text .linkpath).isSome :=
  h history m [] rfl hplain hlink

end

/-- The state the reader is in after the members of `history` -/
structure Tracks {υ : Type} (o : ReaderOptions) (s : VisitState υ) (history : List Member) : Prop where
  inForce : InForce o (scopeOf history) s.pax s.shared s.long
  longLink : LinksTaken history → s.long.link = (scopeOf history).longLink

section
variable {υ : Type} {ops : VisitorOps υ} {o : ReaderOptions} {s t : VisitState υ} {history : List Member} {m : Member}

variable {input : Input} {size : Nat}

theorem readPaxRecords_fold {isGlobal : Bool} {target : PaxInfo} {read : PaxInfo × Input}
    (hpayload : m.payload = input.rest.take size)
    (h : readPaxRecords o.skipOwnerGroupNames isGlobal input size target = some read) :
    m.records.foldlM (applyPaxRecord o.skipOwnerGroupNames isGlobal) target = some read.1 := by
  by_cases hroom : roundUp size blockSize ≤ input.rest.length
  · rw [readPaxRecords_eq _ _ _ _ _ hroom, ← hpayload] at h
    obtain ⟨final, hfinal, rfl⟩ := Option.map_eq_some_iff.mp h
    exact parsePaxRecords_fold hfinal
  · simp [readPaxRecords_truncated _ _ _ _ _ (Nat.lt_of_not_le hroom)] at h

theorem readTextPayload_text {read : Bytes × Input}
    (hpayload : m.payload = input.rest.take size) (h : input.readTextPayload size = some read) :
    read.1 = longText m.payload := by
  by_cases hroom : roundUp size blockSize ≤ input.rest.length
  · rw [readTextPayload_eq hroom, ← hpayload] at h
    cases h
    rfl
  · simp [readTextPayload_truncated (Nat.lt_of_not_le hroom)] at h

theorem visitBlock_extended {index : Nat} (htracks : Tracks o s history) (hextended : m.isExtended = true)
    (hsize : headerPayloadSize m.header (paxEffectiveInfo s.shared s.pax).numbers = some m.size)
    (hpayload : m.payload = s.input.rest.take m.size) (h : visitBlock ops o s m.header index = some t) :
    Tracks o t (history ++ [m]) := by
  obtain ⟨⟨hown, hshared, hname⟩, hlink⟩ := htracks
  have htype : typeflag m.header = m.type := rfl
  unfold visitBlock at h
  by_cases hsum : headerChecksumValid m.header = true
  swap
  · simp [hsum] at h
  rw [if_pos hsum, hsize] at h
  dsimp only at h
  rw [htype] at h
  by_cases hx : m.type = 120
  · rw [if_pos hx] at h
    obtain ⟨read, hread, rfl⟩ := Option.map_eq_some_iff.mp h
    have hfold := readPaxRecords_fold hpayload hread
    refine ⟨⟨?_, ?_, ?_⟩, fun htaken => ?_⟩ <;> simp only [scopeOf_extended hextended, hx]
    · rw [if_pos trivial, List.foldlM_append, hown]
      exact hfold
    · simpa using hshared
    · exact hname
    · exact hlink htaken.init
  rw [if_neg hx] at h
  by_cases hg : m.type = 103
  · rw [if_pos hg] at h
    obtain ⟨read, hread, rfl⟩ := Option.map_eq_some_iff.mp h
    have hfold := readPaxRecords_fold hpayload hread
    refine ⟨⟨?_, ?_, ?_⟩, fun htaken => ?_⟩ <;> simp only [scopeOf_extended hextended, hg]
    · simpa using hown
    · rw [if_pos trivial, List.foldlM_append, hshared]
      exact hfold
    · exact hname
    · exact hlink htaken.init
  rw [if_neg hg] at h
  by_cases hL : m.type = 76
  · rw [if_pos hL] at h
    obtain ⟨read, hread, rfl⟩ := Option.map_eq_some_iff.mp h
    have htext := readTextPayload_text hpayload hread
    refine ⟨⟨?_, ?_, ?_⟩, fun htaken => ?_⟩ <;> simp only [scopeOf_extended hextended, hL]
    · simpa using hown
    · simpa using hshared
    · rw [htext]
      rfl
    · exact hlink htaken.init
  rw [if_neg hL] at h
  by_cases hK : m.type = 75
  · rw [if_pos hK] at h
    obtain ⟨read, hread, rfl⟩ := Option.map_eq_some_iff.mp h
    have htext := readTextPayload_text hpayload hread
    refine ⟨⟨?_, ?_, ?_⟩, fun htaken => ?_⟩ <;> simp only [scopeOf_extended hextended, hK]
    · simpa using hown
    · simpa using hshared
    · exact hname
    · rw [htext]
      rfl
  · -- no other type is extended
    exfalso
    have hother : isExtendedType m.type = true := hextended
    simp [isExtendedType, hx, hg, hL, hK] at hother

theorem visitEntry_prepared {header : Bytes} {index size : Nat} (h : visitEntry ops o s header index size = some t) :
    ∃ prepared user, preparedEntry ops o s header index size = some prepared ∧
      ops.beginEntry s.user prepared.1 = some user ∧ t.pax = paxInfoClear s.pax ∧ t.shared = s.shared ∧
      t.long = prepared.2.2.2 := by
  unfold visitEntry at h
  simp only [preparedEntry]
  cases hprepare : prepareEntryFromHeader o header size (typeflag header) (paxEffectiveInfo s.shared s.pax)
      (paxEffectiveInfo s.shared s.pax).numbers s.shared.metadata s.long with
  | none =>
    simp only [hprepare] at h
    cases h
  | some prepared =>
    obtain ⟨entry, long⟩ := prepared
    simp only [hprepare] at h
    cases hmember : prepareMember ops s.pax size (entry.atBlock index) s.input with
    | none =>
      simp only [hmember] at h
      cases h
    | some member =>
      obtain ⟨entry, archivePadding, input⟩ := member
      simp only [hmember] at h
      cases hbegin : ops.beginEntry s.user entry with
      | none =>
        simp only [hbegin] at h
        cases h
      | some user =>
        simp only [hbegin] at h
        cases hpayload : visitMemberPayload ops entry size archivePadding user input with
        | none =>
          simp only [hpayload] at h
          cases h
        | some visited =>
          obtain ⟨after, rest⟩ := visited
          simp only [hpayload] at h
          obtain ⟨_, _, rfl⟩ := Option.map_eq_some_iff.mp h
          exact ⟨(entry, archivePadding, input, long), user, by simp only [hmember, Option.map_some], hbegin,
            rfl, rfl, rfl⟩

theorem visitBlock_entry {index : Nat} (htracks : Tracks o s history) (hplain : m.isExtended = false)
    (hsize : headerPayloadSize m.header (paxEffectiveInfo s.shared s.pax).numbers = some m.size)
    (h : visitBlock ops o s m.header index = some t) :
    ∃ prepared, preparedEntry ops o s m.header index m.size = some prepared ∧
      Scoped o (scopeOf history) m prepared.1 ∧
      (LinksTaken history → prepared.1.linkname = scopedTarget (scopeOf history) m) ∧ Tracks o t (history ++ [m]) := by
  have htypes : m.type ≠ 120 ∧ m.type ≠ 103 ∧ m.type ≠ 76 ∧ m.type ≠ 75 := by
    have hplain' : isExtendedType m.type = false := hplain
    simpa [isExtendedType, and_assoc] using hplain'
  have htype : typeflag m.header = m.type := rfl
  unfold visitBlock at h
  by_cases hsum : headerChecksumValid m.header = true
  swap
  · simp [hsum] at h
  rw [if_pos hsum, hsize] at h
  dsimp only at h
  rw [htype, if_neg htypes.1, if_neg htypes.2.1, if_neg htypes.2.2.1, if_neg htypes.2.2.2] at h
  obtain ⟨prepared, user, hprepared, _, hpax, hshared, hlong⟩ := visitEntry_prepared h
  have hpreparing := hprepared
  unfold preparedEntry at hpreparing
  dsimp only at hpreparing
  split at hpreparing
  · cases hpreparing
  · rename_i entry long hprepare
    obtain ⟨r, hmember, rfl⟩ := Option.map_eq_some_iff.mp hpreparing
    obtain ⟨hscoped, htarget, hname, hlink⟩ := htracks.inForce.scoped hplain hsize hprepare hmember
    refine ⟨_, hprepared, hscoped, fun htaken => htarget (htracks.longLink htaken), ⟨⟨?_, ?_, ?_⟩, ?_⟩⟩
    · rw [scopeOf_entry hplain, hpax, htracks.inForce.untouched]
      rfl
    · rw [scopeOf_entry hplain, hshared]
      exact htracks.inForce.shared
    · rw [scopeOf_entry hplain, hlong]
      exact hname
    · intro htaken
      rw [scopeOf_entry hplain, hlong]
      dsimp only
      rw [hlink]
      by_cases htook : ((scopeOf history).text .linkpath).isSome = true ∨ isLinkType m.type = true
      · rw [if_pos (by simpa using htook)]
      · rw [if_neg (by simpa using htook), htracks.longLink htaken.init]
        cases hstray : (scopeOf history).longLink with
        | none => rfl
        | some text =>
          have hcase := htaken.last hplain (by rw [hstray]; rfl)
          exact absurd hcase.symm htook

/-! ## A step and a run -/

theorem visitStep_go (h : visitStep ops o s = .inl t) :
    (blockIsZero (frontHeader s) = true ∧ t.pax = s.pax ∧ t.shared = s.shared ∧ t.long = s.long) ∨
      (blockIsZero (frontHeader s) = false ∧ visitBlock ops o (frontState s) (frontHeader s)
        ((frontState s).input.totalBytesRead / blockSize - 1) = some t) := by
  have hheader : ∀ w : VisitState υ, w.pax = s.pax → w.shared = s.shared → w.long = s.long → ∀ header,
      visitHeader ops o w header = .inl t →
      (blockIsZero header = true ∧ t.pax = s.pax ∧ t.shared = s.shared ∧ t.long = s.long) ∨
        (blockIsZero header = false ∧
          visitBlock ops o w header (w.input.totalBytesRead / blockSize - 1) = some t) := by
    intro w hpax hshared hlong header hstep
    unfold visitHeader at hstep
    dsimp only at hstep
    by_cases hzero : blockIsZero header = true
    · rw [if_pos hzero] at hstep
      split at hstep
      · cases hstep
      · cases hstep
      · split at hstep
        · cases hstep
        · cases hstep
          exact .inl ⟨hzero, hpax, hshared, hlong⟩
    · rw [if_neg hzero] at hstep
      split at hstep
      · cases hstep
      · rename_i next hblock
        cases hstep
        exact .inr ⟨by simpa using hzero, hblock⟩
  unfold visitStep at h
  cases hahead : s.header with
  | some header =>
    rw [hahead] at h
    have hfront : frontHeader s = header := by simp [frontHeader, hahead]
    have hsome : s.header.isSome = true := by simp [hahead]
    have hstate : frontState s = s := by
      unfold frontState
      rw [if_pos hsome]
    rw [hfront, hstate]
    exact hheader s rfl rfl rfl header h
  | none =>
    rw [hahead] at h
    have hfront : frontHeader s = s.input.rest.take blockSize := by simp [frontHeader, hahead]
    have hstate : frontState s = { s with input := s.input.advance blockSize } := by simp [frontState, hahead]
    rw [hfront, hstate]
    unfold Input.readExact at h
    by_cases hroom : blockSize ≤ s.input.rest.length
    · rw [if_pos hroom] at h
      exact hheader { s with input := s.input.advance blockSize } rfl rfl rfl _ h
    · rw [if_neg hroom] at h
      by_cases hend : s.input.rest = []
      · simp [hend] at h
      · simp [hend] at h

/-- What `p` shows after `history` -/
def Described (o : ReaderOptions) (history : List Member) (p : Member × Option Entry) : Prop :=
  p.1.isExtended = false → ∃ entry, p.2 = some entry ∧ Scoped o (scopeOf history) p.1 entry ∧
    (LinksTaken history → entry.linkname = scopedTarget (scopeOf history) p.1)

theorem visitStep_tracks (htracks : Tracks o s history) (h : visitStep ops o s = .inl t) :
    Tracks o t (history ++ (frontMember s).toList) ∧
      ∀ m, frontMember s = some m → Described o history (m, frontEntry ops o s) := by
  cases visitStep_go h with
  | inl hzero =>
    obtain ⟨hblock, hpax, hshared, hlong⟩ := hzero
    have hnone : frontMember s = none := by
      unfold frontMember
      rw [if_pos hblock]
    rw [hnone]
    refine ⟨?_, fun m hm => by cases hm⟩
    rw [Option.toList_none, List.append_nil]
    exact ⟨by rw [hpax, hshared, hlong]; exact htracks.inForce, by rw [hlong]; exact htracks.longLink⟩
  | inr hblock =>
    obtain ⟨hnonzero, hvisit⟩ := hblock
    have hfront : Tracks o (frontState s) history := ⟨htracks.inForce, htracks.longLink⟩
    cases hsize : frontSize s with
    | none =>
      exfalso
      have hnone : headerPayloadSize (frontHeader s) (paxEffectiveInfo (frontState s).shared (frontState s).pax).numbers =
          none := hsize
      unfold visitBlock at hvisit
      rw [hnone] at hvisit
      split at hvisit
      · cases hvisit
      · cases hvisit
    | some size =>
      have hmember : frontMember s = some
          { header := frontHeader s, size := size, payload := (frontState s).input.rest.take size } := by
        unfold frontMember
        rw [if_neg (by simp [hnonzero]), hsize]
        rfl
      rw [hmember, Option.toList_some]
      by_cases hextended : isExtendedType (typeflag (frontHeader s)) = true
      · refine ⟨visitBlock_extended hfront hextended hsize rfl hvisit, ?_⟩
        intro m hm hplain
        cases hm
        have hextended' : isExtendedType (typeflag (frontHeader s)) = false := hplain
        simp [hextended] at hextended'
      · have hplain : isExtendedType (typeflag (frontHeader s)) = false := by simpa using hextended
        obtain ⟨prepared, hprepared, hscoped, htarget, htracks'⟩ := @visitBlock_entry υ ops o (frontState s) t history
          { header := frontHeader s, size := size, payload := (frontState s).input.rest.take size } _ hfront hplain hsize
          hvisit
        refine ⟨htracks', ?_⟩
        intro m hm _
        cases hm
        refine ⟨prepared.1, ?_, hscoped, htarget⟩
        unfold frontEntry
        rw [if_neg hextended, hsize, Option.bind_some, hprepared]
        rfl

theorem readMembers_described {fuel : Nat} (htracks : Tracks o s history) {i : Nat} {p : Member × Option Entry}
    (h : (readMembers ops o fuel s)[i]? = some p) :
    Described o (history ++ ((readMembers ops o fuel s).take i).map (·.1)) p := by
  induction fuel generalizing s history i with
  | zero => cases h
  | succ fuel ih =>
    rw [readMembers] at h ⊢
    cases hstep : visitStep ops o s with
    | inr r => simp [hstep] at h
    | inl t =>
      rw [hstep] at h
      obtain ⟨htracks', hdescribed⟩ := visitStep_tracks htracks hstep
      dsimp only at h ⊢
      cases hfront : frontMember s with
      | none =>
        rw [hfront, Option.toList_none, List.append_nil] at htracks'
        rw [hfront] at h
        exact ih htracks' h
      | some m =>
        rw [hfront, Option.toList_some] at htracks'
        rw [hfront] at h
        cases i with
        | zero =>
          cases h
          rw [List.take_zero, List.map_nil, List.append_nil]
          exact hdescribed m hfront
        | succ i =>
          have hrest := ih htracks' h
          simpa using hrest

theorem tracks_start (archive : Bytes) (user : υ) :
    Tracks o { input := { rest := archive }, user := user : VisitState υ } [] :=
  ⟨⟨rfl, rfl, rfl⟩, fun _ => rfl⟩

end

/-- **Main result.** Every entry of a run is what its scope and its header say, and nothing local outlives it. -/
theorem entry_scoped {υ : Type} (ops : VisitorOps υ) (o : ReaderOptions) (archive : Bytes) (user : υ) {i : Nat}
    {m : Member} {shown : Option Entry} (h : (archiveMembers ops o archive user)[i]? = some (m, shown))
    (hentry : m.isExtended = false) :
    let history := ((archiveMembers ops o archive user).take i).map (·.1)
    ∃ entry, shown = some entry ∧ Scoped o (scopeOf history) m entry ∧
      (LinksTaken history → entry.linkname = scopedTarget (scopeOf history) m) ∧
      scopeOf (history ++ [m]) = { shared := (scopeOf history).shared } := by
  intro history
  obtain ⟨entry, hshown, hscoped, htarget⟩ := readMembers_described (tracks_start archive user) h hentry
  exact ⟨entry, hshown, hscoped, htarget, scopeOf_entry hentry⟩

/-! ## The order of local records -/

def lastLocalName (history : List Member) : Option Bytes :=
  ((sinceEntry history).flatMap fun m =>
    if m.type = 120 then m.records.filterMap sparseNameWrite
    else if m.type = 76 then [longText m.payload] else []).getLast?

def memberBlocks (name : String) (type : UInt8) (payload : Bytes) : Bytes :=
  (RawHeader.block { name := ⟨ascii name, []⟩, type := type, size := payload.length }) ++ payload
    ++ zeroPadding payload.length

def twoNames : Bytes :=
  memberBlocks "p" 120 (ascii "9 path=x" ++ [10]) ++ memberBlocks "l" 76 (ascii "y" ++ [0]) ++ memberBlocks "h" 48 []

theorem twoNames_shows :
    (archiveMembers collectOps {} twoNames {})[2]?.map (fun p => (p.1.isExtended, p.1.type, p.2.map (·.name))) =
        some (false, 48, some (ascii "x")) ∧
      lastLocalName (((archiveMembers collectOps {} twoNames {}).take 2).map (·.1)) = some (ascii "y") := by
  decide +kernel

theorem entry_scoped_twoNames : ∃ m entry, (archiveMembers collectOps {} twoNames {})[2]? = some (m, some entry) ∧
      Scoped {} (scopeOf (((archiveMembers collectOps {} twoNames {}).take 2).map (·.1))) m entry := by
  obtain ⟨⟨m, shown⟩, hread, hfacts⟩ := Option.map_eq_some_iff.mp twoNames_shows.1
  have hplain : m.isExtended = false := congrArg Prod.fst hfacts
  obtain ⟨entry, hshown, hscoped, _⟩ := entry_scoped collectOps {} twoNames {} hread hplain
  exact ⟨m, entry, by rw [hread, hshown], hscoped⟩

/-- The long name of `twoNames` comes later than the record and loses. -/
theorem lastLocalName_loses :
    ¬∀ (υ : Type) (ops : VisitorOps υ) (o : ReaderOptions) (archive : Bytes) (user : υ) (i : Nat) (m : Member)
      (entry : Entry), (archiveMembers ops o archive user)[i]? = some (m, some entry) →
      let history := ((archiveMembers ops o archive user).take i).map (·.1)
      let name := (lastLocalName history <|> lastWrite (textWrite .path) (scopeOf history).shared).getD
        (headerName m.header)
      entry.name = if m.type = 53 ∨ m.type = 68 then name.rdropWhile (· == 47) else name := by
  intro hall
  obtain ⟨⟨m, shown⟩, hread, hfacts⟩ := Option.map_eq_some_iff.mp twoNames_shows.1
  obtain ⟨_, htype, hname⟩ : m.isExtended = false ∧ m.type = 48 ∧ shown.map (·.name) = some (ascii "x") := by
    simpa using hfacts
  obtain ⟨entry, rfl, hx⟩ := Option.map_eq_some_iff.mp hname
  have hlast := hall CollectState collectOps {} twoNames {} 2 m entry hread
  dsimp only at hlast
  rw [twoNames_shows.2, htype, if_neg (by decide), hx] at hlast
  have hsame : ascii "x" = ascii "y" := hlast
  exact absurd hsame (by decide)

end Bx.Tar
