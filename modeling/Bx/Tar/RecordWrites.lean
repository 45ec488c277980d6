import Bx.Tar.RecordScope

/-!
# What records write

A payload of records is its records in order, and each one writes the field of
its key and keeps the others.
-/

namespace Bx.Tar
open Kit

/-! ## Framing -/

section
variable {skipOwnerGroupNames isGlobal : Bool}

theorem parsePaxRecordsStep_frame {target : PaxInfo} {data : Bytes} (hne : data ≠ []) :
    parsePaxRecordsStep skipOwnerGroupNames isGlobal (target, data) =
      match frameRecord data with
      | none => .inr none
      | some (record, rest) =>
        match applyPaxRecord skipOwnerGroupNames isGlobal target record with
        | none => .inr none
        | some target => .inl (target, rest) := by
  simp only [parsePaxRecordsStep, frameRecord]
  rw [if_neg hne]
  cases recordLength 0 0 data with
  | none => rfl
  | some r =>
    obtain ⟨lineLen, digits⟩ := r
    dsimp only
    by_cases hbad : digits = 0 ∨ lineLen = 0 ∨ paxRecordLimit < lineLen ∨ data.length < lineLen
        ∨ (data.drop (lineLen - 1)).head? ≠ some 10
    · rw [if_pos hbad, if_pos hbad]
    rw [if_neg hbad, if_neg hbad]
    by_cases hshort : lineLen - 1 < digits + 1
    · rw [if_pos hshort, if_pos hshort]
    · rewrite [if_neg hshort, if_neg hshort]
      cases happly : applyPaxRecord skipOwnerGroupNames isGlobal target
          ((data.take (lineLen - 1)).drop (digits + 1)) with
      | none => simp only [happly]
      | some next => simp only [happly]

variable {target final : PaxInfo}

theorem frameRecords_loop {fuel : Nat} {data : Bytes}
    (h : loop (parsePaxRecordsStep skipOwnerGroupNames isGlobal) fuel (target, data) = some (some final)) :
    ∃ records, frameRecords fuel data = some records ∧
      records.foldlM (applyPaxRecord skipOwnerGroupNames isGlobal) target = some final := by
  induction fuel generalizing target data with
  | zero => cases h
  | succ fuel ih =>
    by_cases hnil : data = []
    · rw [hnil] at h
      cases h
      exact ⟨[], by rw [frameRecords, if_pos hnil], rfl⟩
    have hstep := @parsePaxRecordsStep_frame skipOwnerGroupNames isGlobal target data hnil
    cases hframe : frameRecord data with
    | none =>
      rw [hframe] at hstep
      simp [loop_leave hstep] at h
    | some r =>
      obtain ⟨record, rest⟩ := r
      rw [hframe] at hstep
      dsimp only at hstep
      cases happly : applyPaxRecord skipOwnerGroupNames isGlobal target record with
      | none =>
        rw [happly] at hstep
        simp [loop_leave hstep] at h
      | some next =>
        rw [happly] at hstep
        rw [loop_go hstep] at h
        obtain ⟨records, hrecords, hfold⟩ := ih h
        refine ⟨record :: records, ?_, ?_⟩
        · rw [frameRecords, if_neg hnil, hframe, Option.bind_some, hrecords]
          rfl
        · rw [List.foldlM_cons, happly]
          exact hfold

theorem parsePaxRecords_fold {m : Member}
    (h : parsePaxRecords skipOwnerGroupNames isGlobal target m.payload = some final) :
    m.records.foldlM (applyPaxRecord skipOwnerGroupNames isGlobal) target = some final := by
  unfold parsePaxRecords at h
  obtain ⟨records, hrecords, hfold⟩ := frameRecords_loop (Option.join_eq_some_iff.mp h)
  unfold Member.records
  rw [hrecords]
  exact hfold

end

/-! ## One record -/

def isMetadataKey (key : Bytes) : Bool := (ascii "SCHILY.").isPrefixOf key || key == ascii "RHT.security.selinux"

inductive Applied (skipOwnerGroupNames isGlobal : Bool) (target : PaxInfo) (key value : Bytes) : PaxInfo → Prop
  | number {field : PaxField} {numbers : PaxNumbers} : PaxField.ofKey key = some field →
      paxApplyNumber target.numbers field value = some numbers →
      Applied skipOwnerGroupNames isGlobal target key value { target with numbers := numbers, active := true }
  | skipped {text : PaxText} : PaxField.ofKey key = none → PaxText.ofKey key = some text →
      (skipOwnerGroupNames && (text == .uname || text == .gname)) = true →
      Applied skipOwnerGroupNames isGlobal target key value target
  | text {text : PaxText} : PaxField.ofKey key = none → PaxText.ofKey key = some text →
      Applied skipOwnerGroupNames isGlobal target key value (target.setText text value)
  | metadata {metadata : Metadata} {omitSelinux : Bool} : PaxField.ofKey key = none → PaxText.ofKey key = none →
      isMetadataKey key = true → Applied skipOwnerGroupNames isGlobal target key value
        { target with active := true, metadata := metadata, omitSelinux := omitSelinux }
  | ignored : PaxField.ofKey key = none → PaxText.ofKey key = none → isGlobal = true →
      Applied skipOwnerGroupNames isGlobal target key value target
  | sparse {next : PaxInfo} : PaxField.ofKey key = none → PaxText.ofKey key = none → isGlobal = false →
      applyPaxSparse target key value = some next → Applied skipOwnerGroupNames isGlobal target key value next

section
variable {skipOwnerGroupNames isGlobal : Bool} {target next : PaxInfo} {record key value : Bytes}

theorem applied_metadata (hfield : PaxField.ofKey key = none) (htext : PaxText.ofKey key = none)
    (hmeta : isMetadataKey key = true) (h : applyPaxMetadata target key value = some next) :
    Applied skipOwnerGroupNames isGlobal target key value next := by
  unfold applyPaxMetadata at h
  dsimp only at h
  split at h
  · cases h
    exact .metadata hfield htext hmeta
  · split at h
    · cases h
    · split at h
      · cases h
        exact .metadata hfield htext hmeta
      · cases h

theorem applyPaxRecord_applied (h : applyPaxRecord skipOwnerGroupNames isGlobal target record = some next) :
    ∃ key value, splitPaxRecord record = some (key, value) ∧
      Applied skipOwnerGroupNames isGlobal target key value next := by
  unfold applyPaxRecord at h
  cases hsplit : splitPaxRecord record with
  | none => simp [hsplit] at h
  | some r =>
    obtain ⟨key, value⟩ := r
    rw [hsplit] at h
    dsimp only at h
    refine ⟨key, value, rfl, ?_⟩
    cases hfield : PaxField.ofKey key with
    | some field =>
      rw [hfield] at h
      dsimp only at h
      by_cases hzero : value.contains 0 = true
      · rw [if_pos hzero] at h
        cases h
      rw [if_neg hzero] at h
      obtain ⟨numbers, hnumbers, rfl⟩ := Option.map_eq_some_iff.mp h
      exact .number hfield hnumbers
    | none =>
      rw [hfield] at h
      dsimp only at h
      cases htext : PaxText.ofKey key with
      | some text =>
        rw [htext] at h
        dsimp only at h
        split at h
        · cases h
        · split at h
          · rename_i hskip
            cases h
            exact .skipped hfield htext hskip
          · cases h
            exact .text hfield htext
      | none =>
        rw [htext] at h
        dsimp only at h
        by_cases hmeta : isMetadataKey key = true
        · unfold isMetadataKey at hmeta
          rw [if_pos hmeta] at h
          exact applied_metadata hfield htext hmeta h
        · unfold isMetadataKey at hmeta
          rw [if_neg hmeta] at h
          cases isGlobal with
          | true =>
            rw [if_pos rfl] at h
            cases h
            exact .ignored hfield htext rfl
          | false =>
            rw [if_neg Bool.false_ne_true] at h
            exact .sparse hfield htext rfl h

theorem applyPaxSparse_cases (h : applyPaxSparse target key value = some next) :
    next.numbers = target.numbers ∧ next.linkpath = target.linkpath ∧ next.uname = target.uname ∧
      next.gname = target.gname ∧
      next.path = (if key = ascii "GNU.sparse.name" then some value else target.path) ∧
      some next.sparseRealsize = ((if key = ascii "GNU.sparse.realsize" then sizeParseUint (cText value) else none) <|>
        some target.sparseRealsize) ∧ (next = target ∨ next.active = true) := by
  unfold applyPaxSparse at h
  by_cases hname : key = ascii "GNU.sparse.name"
  · have hother : ascii "GNU.sparse.name" ≠ ascii "GNU.sparse.realsize" := by decide
    rw [if_pos hname] at h
    split at h
    · cases h
    · cases h
      rw [if_pos hname, hname, if_neg hother]
      exact ⟨rfl, rfl, rfl, rfl, rfl, rfl, .inr rfl⟩
  rw [if_neg hname] at h
  rw [if_neg hname]
  by_cases hmajor : key = ascii "GNU.sparse.major"
  · have hother : ascii "GNU.sparse.major" ≠ ascii "GNU.sparse.realsize" := by decide
    rw [if_pos hmajor] at h
    obtain ⟨_, _, rfl⟩ := Option.map_eq_some_iff.mp h
    rw [hmajor, if_neg hother]
    exact ⟨rfl, rfl, rfl, rfl, rfl, rfl, .inr rfl⟩
  rw [if_neg hmajor] at h
  by_cases hminor : key = ascii "GNU.sparse.minor"
  · have hother : ascii "GNU.sparse.minor" ≠ ascii "GNU.sparse.realsize" := by decide
    rw [if_pos hminor] at h
    obtain ⟨_, _, rfl⟩ := Option.map_eq_some_iff.mp h
    rw [hminor, if_neg hother]
    exact ⟨rfl, rfl, rfl, rfl, rfl, rfl, .inr rfl⟩
  rw [if_neg hminor] at h
  by_cases hreal : key = ascii "GNU.sparse.realsize"
  · rw [if_pos hreal] at h
    obtain ⟨parsed, hparsed, rfl⟩ := Option.map_eq_some_iff.mp h
    rw [if_pos hreal, hparsed]
    exact ⟨rfl, rfl, rfl, rfl, rfl, rfl, .inr rfl⟩
  · rw [if_neg hreal] at h
    cases h
    rw [if_neg hreal]
    exact ⟨rfl, rfl, rfl, rfl, rfl, rfl, .inl rfl⟩

end

/-! ## What a record writes -/

def PaxNumber.reading {α : Type} (n : PaxNumber α) : Option (Option α) :=
  if n.present then some (some n.value) else if n.defined then some none else none

section
variable {α : Type} (n shared own : PaxNumber α)

theorem reading_delete : n.delete.reading = some none := rfl

theorem reading_known (value : α) : (PaxNumber.known value).reading = some (some value) := rfl

theorem reading_effective : (shared.effective own).reading = (own.reading <|> shared.reading) := by
  obtain ⟨sharedDefined, sharedPresent, sharedValue⟩ := shared
  obtain ⟨ownDefined, ownPresent, ownValue⟩ := own
  cases sharedDefined <;> cases sharedPresent <;> cases ownDefined <;> cases ownPresent <;> rfl

theorem headerNumber_reading (ofHeader : Nat → α) (octal : Bytes) :
    headerNumber n ofHeader octal = numberOr n.reading ofHeader octal := by
  obtain ⟨defined, present, value⟩ := n
  cases defined <;> cases present <;> rfl

theorem deleted_reading [BEq α] : n.deleted = (n.reading == some none) := by
  obtain ⟨defined, present, value⟩ := n
  cases defined <;> cases present <;> rfl

end

section
variable {skipOwnerGroupNames isGlobal : Bool} {target next : PaxInfo} {record key value : Bytes}

theorem numberWrite_other {α : Type} (field : PaxField) (parse : Bytes → Option α)
    (hsplit : splitPaxRecord record = some (key, value)) (h : PaxField.ofKey key ≠ some field) :
    numberWrite field parse record = none := by
  simp [numberWrite, hsplit, h]

theorem textWrite_other (text : PaxText) (hsplit : splitPaxRecord record = some (key, value))
    (h : PaxText.ofKey key ≠ some text) : textWrite text record = none := by
  simp [textWrite, hsplit, h]

variable {field : PaxField}

theorem paxApplyNumber_readings {numbers numbers' : PaxNumbers}
    (hsplit : splitPaxRecord record = some (key, value)) (hfield : PaxField.ofKey key = some field)
    (h : paxApplyNumber numbers field value = some numbers') :
    numbers'.size.reading = (numberWrite .size sizeParseUint record <|> numbers.size.reading) ∧
      numbers'.uid.reading = (numberWrite .uid sizeParseUint record <|> numbers.uid.reading) ∧
      numbers'.gid.reading = (numberWrite .gid sizeParseUint record <|> numbers.gid.reading) ∧
      numbers'.mtime.reading = (numberWrite .mtime parsePaxTime record <|> numbers.mtime.reading) := by
  unfold paxApplyNumber at h
  by_cases hempty : value = []
  · rw [if_pos hempty] at h
    cases field <;> cases h <;> simp [numberWrite, hsplit, hfield, hempty, reading_delete]
  · rw [if_neg hempty] at h
    cases field with
    | mtime =>
      obtain ⟨time, htime, rfl⟩ := Option.map_eq_some_iff.mp h
      simp [numberWrite, hsplit, hfield, hempty, htime, reading_known]
    | size =>
      obtain ⟨parsed, hparsed, hbound⟩ := Option.bind_eq_some_iff.mp h
      split at hbound
      · cases hbound
      · cases hbound
        simp [numberWrite, hsplit, hfield, hempty, hparsed, reading_known]
    | uid =>
      obtain ⟨parsed, hparsed, hbound⟩ := Option.bind_eq_some_iff.mp h
      split at hbound
      · cases hbound
      · cases hbound
        simp [numberWrite, hsplit, hfield, hempty, hparsed, reading_known]
    | gid =>
      obtain ⟨parsed, hparsed, hbound⟩ := Option.bind_eq_some_iff.mp h
      split at hbound
      · cases hbound
      · cases hbound
        simp [numberWrite, hsplit, hfield, hempty, hparsed, reading_known]

theorem applied_numbers (h : Applied skipOwnerGroupNames isGlobal target key value next) :
    (∃ field, PaxField.ofKey key = some field ∧ paxApplyNumber target.numbers field value = some next.numbers) ∨
      (PaxField.ofKey key = none ∧ next.numbers = target.numbers) := by
  cases h with
  | number hfield hnumbers => exact .inl ⟨_, hfield, hnumbers⟩
  | skipped hfield _ _ => exact .inr ⟨hfield, rfl⟩
  | @text text hfield _ => cases text <;> exact .inr ⟨hfield, rfl⟩
  | metadata hfield _ _ => exact .inr ⟨hfield, rfl⟩
  | ignored hfield _ _ => exact .inr ⟨hfield, rfl⟩
  | sparse hfield _ _ hsparse => exact .inr ⟨hfield, (applyPaxSparse_cases hsparse).1⟩

theorem apply_readings (h : applyPaxRecord skipOwnerGroupNames isGlobal target record = some next) :
    next.numbers.size.reading = (numberWrite .size sizeParseUint record <|> target.numbers.size.reading) ∧
      next.numbers.uid.reading = (numberWrite .uid sizeParseUint record <|> target.numbers.uid.reading) ∧
      next.numbers.gid.reading = (numberWrite .gid sizeParseUint record <|> target.numbers.gid.reading) ∧
      next.numbers.mtime.reading = (numberWrite .mtime parsePaxTime record <|> target.numbers.mtime.reading) := by
  obtain ⟨key, value, hsplit, happlied⟩ := applyPaxRecord_applied h
  cases applied_numbers happlied with
  | inl hnumber =>
    obtain ⟨field, hfield, hnumbers⟩ := hnumber
    exact paxApplyNumber_readings hsplit hfield hnumbers
  | inr hother =>
    obtain ⟨hfield, hnumbers⟩ := hother
    have hnone : ∀ field, PaxField.ofKey key ≠ some field := by
      intro field hsome
      simp [hfield] at hsome
    rw [hnumbers, numberWrite_other .size sizeParseUint hsplit (hnone .size),
      numberWrite_other .uid sizeParseUint hsplit (hnone .uid), numberWrite_other .gid sizeParseUint hsplit (hnone .gid),
      numberWrite_other .mtime parsePaxTime hsplit (hnone .mtime)]
    exact ⟨rfl, rfl, rfl, rfl⟩

theorem textKey_of_numberKey (h : PaxField.ofKey key = some field) : PaxText.ofKey key = none := by
  unfold PaxField.ofKey at h
  by_cases hsize : key = ascii "size"
  · rw [hsize]
    rfl
  by_cases huid : key = ascii "uid"
  · rw [huid]
    rfl
  by_cases hgid : key = ascii "gid"
  · rw [hgid]
    rfl
  by_cases hmtime : key = ascii "mtime"
  · rw [hmtime]
    rfl
  · simp [hsize, if_neg huid, if_neg hgid, if_neg hmtime] at h

def PaxInfo.textOf (pax : PaxInfo) : PaxText → Option Bytes
  | .path => pax.path
  | .linkpath => pax.linkpath
  | .uname => pax.uname
  | .gname => pax.gname

theorem setText_textOf (pax : PaxInfo) (text text' : PaxText) (value : Bytes) :
    (pax.setText text value).textOf text' = if text = text' then some value else pax.textOf text' := by
  cases text <;> cases text' <;> rfl

theorem apply_textOf (text : PaxText) (hpath : isGlobal = true ∨ text ≠ .path)
    (hskip : skipOwnerGroupNames = false ∨ (text ≠ .uname ∧ text ≠ .gname))
    (h : applyPaxRecord skipOwnerGroupNames isGlobal target record = some next) :
    next.textOf text = (textWrite text record <|> target.textOf text) := by
  obtain ⟨key, value, hsplit, happlied⟩ := applyPaxRecord_applied h
  have hnone : PaxText.ofKey key = none → textWrite text record = none := by
    intro hkey
    apply textWrite_other text hsplit
    rw [hkey]
    intro hsome
    cases hsome
  cases happlied with
  | number hfield _ =>
    rw [hnone (textKey_of_numberKey hfield)]
    cases text <;> rfl
  | @skipped text' _ htext hboth =>
    have hother : text' ≠ text := by
      intro heq
      rw [heq] at hboth
      simp only [Bool.and_eq_true, Bool.or_eq_true, beq_iff_eq] at hboth
      cases hskip with
      | inl hno =>
        rw [hno] at hboth
        cases hboth.1
      | inr hnames =>
        cases hboth.2 with
        | inl huname => exact hnames.1 huname
        | inr hgname => exact hnames.2 hgname
    rw [textWrite_other text hsplit (by rw [htext]; simpa using hother)]
    rfl
  | @text text' _ htext =>
    rw [setText_textOf]
    by_cases heq : text' = text
    · rw [if_pos heq]
      rw [heq] at htext
      simp [textWrite, hsplit, htext]
    · rw [if_neg heq, textWrite_other text hsplit (by rw [htext]; simpa using heq)]
      rfl
  | metadata _ htext _ =>
    rw [hnone htext]
    cases text <;> rfl
  | ignored _ htext _ =>
    rw [hnone htext]
    rfl
  | sparse _ htext hown hsparse =>
    obtain ⟨_, hlinkpath, huname, hgname, _⟩ := applyPaxSparse_cases hsparse
    rw [hnone htext]
    cases text with
    | path =>
      cases hpath with
      | inl hglobal => simp [hown] at hglobal
      | inr hne => exact absurd rfl hne
    | linkpath => exact hlinkpath
    | uname => exact huname
    | gname => exact hgname

theorem sparseNameWrite_key (hsplit : splitPaxRecord record = some (key, value)) :
    sparseNameWrite record = if PaxText.ofKey key = some .path ∨ key = ascii "GNU.sparse.name" then some value else none := by
  simp [sparseNameWrite, hsplit]

section
variable (h : applyPaxRecord skipOwnerGroupNames false target record = some next)
include h

theorem apply_path : next.path = (sparseNameWrite record <|> target.path) := by
  obtain ⟨key, value, hsplit, happlied⟩ := applyPaxRecord_applied h
  rw [sparseNameWrite_key hsplit]
  cases happlied with
  | number hfield _ =>
    have hother : ¬(PaxText.ofKey key = some .path ∨ key = ascii "GNU.sparse.name") := by
      intro hboth
      cases hboth with
      | inl hpath =>
        rw [textKey_of_numberKey hfield] at hpath
        cases hpath
      | inr hname =>
        rw [hname] at hfield
        cases hfield
    rw [if_neg hother]
    rfl
  | @skipped text _ htext hboth =>
    have hother : ¬(PaxText.ofKey key = some .path ∨ key = ascii "GNU.sparse.name") := by
      intro hkey
      cases hkey with
      | inl hpath =>
        rw [hpath] at htext
        cases htext
        simp at hboth
      | inr hname =>
        rw [hname] at htext
        cases htext
    rw [if_neg hother]
    rfl
  | @text text _ htext =>
    have hname : key ≠ ascii "GNU.sparse.name" := by
      intro hname
      rw [hname] at htext
      cases htext
    rw [htext]
    cases text <;> simp [PaxInfo.setText, hname]
  | metadata _ htext hmeta =>
    have hother : ¬(PaxText.ofKey key = some .path ∨ key = ascii "GNU.sparse.name") := by
      intro hkey
      cases hkey with
      | inl hpath =>
        rw [hpath] at htext
        cases htext
      | inr hname =>
        rw [hname] at hmeta
        cases hmeta
    rw [if_neg hother]
    rfl
  | ignored _ _ hglobal => cases hglobal
  | sparse _ htext _ hsparse =>
    obtain ⟨_, _, _, _, hpath, _⟩ := applyPaxSparse_cases hsparse
    rw [hpath, htext]
    by_cases hname : key = ascii "GNU.sparse.name" <;> simp [hname]

theorem apply_realsize : some next.sparseRealsize = (realsizeWrite record <|> some target.sparseRealsize) := by
  obtain ⟨key, value, hsplit, happlied⟩ := applyPaxRecord_applied h
  have hwrite : realsizeWrite record =
      if key = ascii "GNU.sparse.realsize" then sizeParseUint (cText value) else none := by
    simp [realsizeWrite, hsplit]
  rw [hwrite]
  cases happlied with
  | number hfield _ =>
    have hother : key ≠ ascii "GNU.sparse.realsize" := by
      intro hkey
      rw [hkey] at hfield
      cases hfield
    rw [if_neg hother]
    rfl
  | skipped _ htext _ =>
    have hother : key ≠ ascii "GNU.sparse.realsize" := by
      intro hkey
      rw [hkey] at htext
      cases htext
    rw [if_neg hother]
    rfl
  | @text text _ htext =>
    have hother : key ≠ ascii "GNU.sparse.realsize" := by
      intro hkey
      rw [hkey] at htext
      cases htext
    rw [if_neg hother]
    cases text <;> rfl
  | metadata _ _ hmeta =>
    have hother : key ≠ ascii "GNU.sparse.realsize" := by
      intro hkey
      rw [hkey] at hmeta
      cases hmeta
    rw [if_neg hother]
    rfl
  | ignored _ _ hglobal => cases hglobal
  | sparse _ _ _ hsparse => exact (applyPaxSparse_cases hsparse).2.2.2.2.2.1

end

theorem apply_active (h : applyPaxRecord skipOwnerGroupNames isGlobal target record = some next) :
    next = target ∨ next.active = true := by
  obtain ⟨key, value, hsplit, happlied⟩ := applyPaxRecord_applied h
  cases happlied with
  | number _ _ => exact .inr rfl
  | skipped _ _ _ => exact .inl rfl
  | @text text _ _ => cases text <;> exact .inr rfl
  | metadata _ _ _ => exact .inr rfl
  | ignored _ _ _ => exact .inl rfl
  | sparse _ _ _ hsparse => exact (applyPaxSparse_cases hsparse).2.2.2.2.2.2

end

end Bx.Tar
